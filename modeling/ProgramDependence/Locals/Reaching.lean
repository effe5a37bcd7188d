import ProgramDependence.Flow.Digraph
import ProgramDependence.Flow.Worklist
import ProgramDependence.Locals.Table

/-! Reaching definitions and the uses they reach. A definition is known by its instruction; an
instruction that defines a local stops all other definitions of it. -/
namespace ProgramDependence

structure Reaching where
  /-- Per instruction, the definitions that reach it, ascending. -/
  sets : List (List Nat)
  /-- The reads of defined values in the order of the code: definition, instruction and local. -/
  chains : List (Nat × Nat × Nat)
  deriving DecidableEq, Repr

namespace Reaching

def spread (flow : Digraph) (access : Access) : Spread where
  size := flow.size
  order := List.range flow.size
  sources := flow.preds
  sinks := flow.succs
  own i := if (access.def? i).isSome then [i] else []
  passes i d := (access.def? i).isNone || access.def? d ≠ access.def? i

/-- For every read of a local, the definitions of it that reach the read. -/
def link (access : Access) (sets : List (List Nat)) : List (Nat × Nat × Nat) :=
  sets.zipIdx.flatMap fun (reaching, u) =>
    (access.usesAt u).flatMap fun v =>
      (reaching.filter fun d => access.def? d = some v).map fun d => (d, u, v)

def compute (flow : Digraph) (access : Access) : Reaching :=
  let sets := (spread flow access).settle.gathered
  ⟨sets, link access sets⟩

/-- The definitions that reach an instruction, ascending. -/
def definitionsAt (r : Reaching) (i : Nat) : List Nat := r.sets.getD i []

/-- The reads of a definition's value: instruction and local, ascending by instruction. -/
def usesOf (r : Reaching) (d : Nat) : List (Nat × Nat) :=
  (r.chains.filter fun chain => chain.1 = d).map (·.2)

end Reaching
end ProgramDependence
