import ProgramDependence.Ascending
import ProgramDependence.Code.Body
import ProgramDependence.Flow.Digraph

/-! Control flow from instruction to instruction: to the next one unless the statement never
falls through, and to every branch target. -/
namespace ProgramDependence

/-- A branch past the end of the body. -/
structure BadTarget where
  instruction : Nat
  target : Nat
  size : Nat
  deriving DecidableEq, Repr

def BadTarget.message (e : BadTarget) : String :=
  s!"instruction {e.instruction} branches to {e.target}, past the end of the body ({e.size} instructions)"

namespace Body

def stmts (b : Body) : List Stmt := b.code.map (·.stmt)

/-- The first instruction with a target outside the body, and its first such target. -/
def badTarget? (b : Body) : Option BadTarget :=
  b.stmts.zipIdx.findSome? fun (s, i) =>
    (s.targets.find? fun target => b.size ≤ target).map fun target => ⟨i, target, b.size⟩

/-- Where control goes after statement `s` at position `i` of `size`. -/
def following (size i : Nat) (s : Stmt) : List Nat :=
  Ascending.ofList ((if s.fallsThrough && i + 1 < size then [i + 1] else []) ++ s.targets)

def flow? (b : Body) : Except BadTarget Digraph :=
  match b.badTarget? with
  | some e => .error e
  | none => .ok ⟨b.stmts.zipIdx.map fun (s, i) => following b.size i s⟩

end Body
end ProgramDependence
