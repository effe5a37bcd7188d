import ProgramDependence.Flow.Digraph
import ProgramDependence.Flow.Worklist
import ProgramDependence.Locals.Table

/-! Live locals. A local is live after an instruction if some way from there reads it before
anything writes it: a backward problem, in which an instruction adds what it reads and stops what it
writes. -/
namespace ProgramDependence

structure Liveness where
  /-- Per instruction, the locals live after it, ascending. -/
  sets : List (List Nat)
  deriving DecidableEq, Repr

namespace Liveness

def spread (flow : Digraph) (access : Access) : Spread where
  size := flow.size
  order := (List.range flow.size).reverse
  sources := flow.succs
  sinks := flow.preds
  own := access.usesAt
  passes i v := access.def? i ≠ some v

def compute (flow : Digraph) (access : Access) : Liveness := ⟨(spread flow access).settle.gathered⟩

/-- The locals live after an instruction, ascending. -/
def after (l : Liveness) (i : Nat) : List Nat := l.sets.getD i []

end Liveness
end ProgramDependence
