/-! Depth-first search. The nodes are the numbers below `size`; the search starts at a root of
its own, numbered `size`, whose successors are given as a list. A node counts as seen while it
is on the stack and after it is done. -/
namespace ProgramDependence.Search

structure State where
  /-- Nodes under way, innermost first, each with the successors still to look at. -/
  stack : List (Nat × List Nat)
  /-- Finished nodes, the last one first. -/
  done : List Nat

namespace State

def seen (s : State) (node : Nat) : Bool :=
  s.done.contains node || s.stack.any fun frame => frame.1 = node

/-- Looks at one successor of the innermost node, or finishes that node. -/
def step (next : Nat → List Nat) (s : State) : State :=
  match s.stack with
  | [] => s
  | (node, []) :: rest => ⟨rest, node :: s.done⟩
  | (node, succ :: more) :: rest =>
    if s.seen succ then ⟨(node, more) :: rest, s.done⟩
    else ⟨(succ, next succ) :: (node, more) :: rest, s.done⟩

def run (next : Nat → List Nat) : Nat → State → State
  | 0, s => s
  | fuel + 1, s => if s.stack.isEmpty then s else run next fuel (s.step next)

end State

/-- Every node is put on the stack at most once, and taken off after each of its successors has
been looked at once. -/
def budget (size : Nat) (roots : List Nat) (next : Nat → List Nat) : Nat :=
  roots.length + 1 + (List.range size).foldr (fun node n => (next node).length + 1 + n) 0

/-- The search when its stack is empty. -/
def explore (size : Nat) (roots : List Nat) (next : Nat → List Nat) : State :=
  State.run next (budget size roots next) ⟨[(size, roots)], []⟩

/-- The root and what it leads to, in reverse postorder: a node comes before those that were
first met through it. -/
def order (size : Nat) (roots : List Nat) (next : Nat → List Nat) : List Nat :=
  (explore size roots next).done

end ProgramDependence.Search
