import ProgramDependence.Flow.Steps
import ProgramDependence.Graph.Basic
import ProgramDependence.PostDominance.Tree
import ProgramDependence.Report
import ProgramDependence.Text.Quoted

/-! What a run logs. -/
namespace ProgramDependence

inductive Level where
  | debug | info | warn
  deriving DecidableEq, Repr

def Level.name : Level → String
  | .debug => "DEBUG"
  | .info => "INFO"
  | .warn => "WARN"

/-- Why a method could not be built. -/
inductive MethodError where
  | flow (e : BadTarget)
  | graph (e : GraphError)
  deriving DecidableEq, Repr

def MethodError.message : MethodError → String
  | .flow e => e.message
  | .graph e => e.message

inductive Event where
  | excluded (className pattern : String)
  | noBody (signature : String)
  | badBody (signature : String)
  | skipped (signature : String) (e : MethodError)
  | building (signature : String) (instructions blocks : Nat)
  | controlAbandoned (signature : String) (e : DominanceError)
  | blocksDropped (signature : String) (blocks : List Nat)
  | untracked (signature : String) (instruction : Nat)
  | untagged (signature name : String) (instruction : Nat)
  | nothingLabelled (label : String)
  | sliced (count : Nat) (label : String)
  | totals (nodes edges : Nat) (s : Summary)
  | losses (s : Summary)
  deriving DecidableEq, Repr

namespace Event

/-- Maximal runs of consecutive numbers in an ascending list, as their first and last. -/
def runs : List Nat → List (Nat × Nat)
  | [] => []
  | n :: rest =>
    match runs rest with
    | (first, last) :: more =>
      if n + 1 = first then (n, last) :: more else (n, n) :: (first, last) :: more
    | [] => [(n, n)]

def runText (run : Nat × Nat) : String :=
  if run.1 = run.2 then toString run.1 else s!"{run.1}..={run.2}"

def rangesText (numbers : List Nat) : String := ", ".intercalate ((runs numbers).map runText)

def level : Event → Level
  | .excluded .. | .noBody .. | .building .. | .untracked .. => .debug
  | .badBody .. | .skipped .. | .controlAbandoned .. | .blocksDropped .. | .untagged ..
  | .nothingLabelled .. => .warn
  | .sliced .. | .totals .. | .losses .. => .info

def message : Event → String
  | .excluded className pattern => s!"excluding {className} (matches `{pattern}`)"
  | .noBody signature => s!"{signature}: no body"
  | .badBody signature => s!"skipping method: {signature}: malformed method body"
  | .skipped signature e => s!"skipping {signature}: {e.message}"
  | .building signature instructions blocks =>
    s!"building {signature} ({instructions} instructions, {blocks} blocks)"
  | .controlAbandoned signature e =>
    s!"{signature}: abandoning control dependences: {e.message}"
  | .blocksDropped signature blocks =>
    s!"{signature}: blocks {rangesText blocks} cannot reach an exit, dropping their control dependences"
  | .untracked signature instruction =>
    s!"{signature}: instruction {instruction} writes a field or array element, not tracked"
  | .untagged signature name instruction =>
    s!"{signature}: skipping data dependence: local `{name}` is not an operand of instruction {instruction}"
  | .nothingLabelled label => s!"no node is labeled {Text.quote label}"
  | .sliced count label => s!"{count} slices on {Text.quote label}"
  | .totals nodes edges s =>
    s!"{nodes} nodes, {edges} edges from {s.methodsBuilt} methods ({s.methodsSkipped} skipped, {s.methodsWithoutBody} without body, {s.classesExcluded} classes excluded)"
  | .losses s =>
    s!"{s.controlAbandoned} methods without control dependences, {s.blocksDropped} blocks without an exit, {s.edgesSkipped} data dependences skipped"

end Event
end ProgramDependence
