import ProgramDependence.Ascending

/-! Sets of numbers at nodes, worked out with a worklist. A node gathers what its sources hold, lets
some of it through and adds its own; whenever that changes what it holds, its sinks are visited
again. -/
namespace ProgramDependence

/-- How sets spread among the nodes below `size`. -/
structure Spread where
  size : Nat
  /-- The nodes in the order of their first visits. -/
  order : List Nat
  /-- The nodes that a node gathers from. -/
  sources : Nat → List Nat
  /-- The nodes that gather from a node. -/
  sinks : Nat → List Nat
  /-- What a node adds. -/
  own : Nat → List Nat
  /-- Whether a node lets a number through. -/
  passes : Nat → Nat → Bool

namespace Spread

structure State where
  /-- Nodes still to visit, the next one first. -/
  queue : List Nat
  /-- Per node, what it gathered when it was last visited. -/
  gathered : List (List Nat)
  /-- Per node, what it holds for its sinks. -/
  held : List (List Nat)
  deriving DecidableEq, Repr

namespace State

def gatheredAt (s : State) (i : Nat) : List Nat := s.gathered.getD i []

def heldAt (s : State) (i : Nat) : List Nat := s.held.getD i []

end State

/-- All that the sources of a node hold. -/
def gather (p : Spread) (s : State) (i : Nat) : List Nat :=
  Ascending.ofList ((p.sources i).flatMap s.heldAt)

/-- What a node makes of what it has gathered. -/
def transfer (p : Spread) (i : Nat) (gathered : List Nat) : List Nat :=
  (p.own i).foldr Ascending.insert (gathered.filter (p.passes i))

/-- Puts nodes at the end of the queue, but none that is waiting there. -/
def enqueue (queue nodes : List Nat) : List Nat :=
  nodes.foldl (fun queue i => if queue.contains i then queue else queue ++ [i]) queue

namespace State

/-- Visits the next node. -/
def step (p : Spread) (s : State) : State :=
  match s.queue with
  | [] => s
  | i :: rest =>
    let gathered := p.gather s i
    let held := p.transfer i gathered
    if held = s.heldAt i then ⟨rest, s.gathered.set i gathered, s.held⟩
    else ⟨enqueue rest (p.sinks i), s.gathered.set i gathered, s.held.set i held⟩

def run (p : Spread) : Nat → State → State
  | 0, s => s
  | fuel + 1, s => if s.queue.isEmpty then s else run p fuel (s.step p)

end State

def start (p : Spread) : State :=
  ⟨p.order, List.replicate p.size [], List.replicate p.size []⟩

/-- What a node holds only grows, and each time it does no more nodes than there are can be
waiting. -/
def budget (p : Spread) : Nat :=
  p.size + p.size * (p.size * ((List.range p.size).flatMap p.own).length)

/-- The sets when nothing is left to visit. -/
def settle (p : Spread) : State := State.run p p.budget p.start

end Spread
end ProgramDependence
