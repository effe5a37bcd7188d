import ProgramDependence.Ascending
import ProgramDependence.Flow.Digraph
import ProgramDependence.Flow.Search

/-! Immediate post-dominators. The nodes without successors are joined to an exit, numbered
after the last node, which roots the tree. Only nodes that reach the exit take part; the others
are stuck.

Positions in the reverse postorder of the reversed graph stand for nodes. A table of parents,
at first empty but for the root, is gone over in that order until a round leaves it as it is. A
node's parent is where the walks from its successors up the table meet. -/
namespace ProgramDependence

namespace PostDominance

/-- The parent at each position, once there is one. -/
abbrev Table := List (Option Nat)

def parent (t : Table) (i : Nat) : Option Nat := t.getD i none

/-- Where the ways up from two positions meet, the later one always going first. A missing
parent, or more steps than the positions allow, is no meeting. -/
def walk (t : Table) : Nat → Nat → Nat → Option Nat
  | 0, _, _ => none
  | fuel + 1, a, b =>
    if a = b then some a
    else if b < a then (parent t a).bind fun a => walk t fuel a b
    else (parent t b).bind fun b => walk t fuel a b

def meet (t : Table) (a b : Nat) : Option Nat := walk t (a + b + 1) a b

/-- Gives position `i` the meeting point of its successors that already have a parent. -/
def turn (ways : List (List Nat)) (t : Table) (i : Nat) : Option Table :=
  match (ways.getD i []).filter fun s => (parent t s).isSome with
  | [] => some t
  | s :: more => (more.foldlM (meet t) s).map fun p => t.set i (some p)

def round (ways : List (List Nat)) (t : Table) : Option Table :=
  (List.range' 1 (t.length - 1)).foldlM (turn ways) t

/-- Rounds until one changes nothing. -/
def settle (ways : List (List Nat)) : Nat → Table → Option Table
  | 0, _ => none
  | fuel + 1, t =>
    match round ways t with
    | none => none
    | some after => if after = t then some t else settle ways fuel after

def start (size : Nat) : Table := some 0 :: List.replicate (size - 1) none

/-- A parent only ever moves to an earlier position, so this many rounds are enough. -/
def rounds (size : Nat) : Nat := size * size + 2

end PostDominance

structure PostDominance where
  size : Nat
  /-- The exit and the nodes that reach it, every node after its post-dominators. -/
  order : List Nat
  /-- Per node its immediate post-dominator, none if that is the exit or the node is stuck. -/
  immediate : List (Option Nat)
  deriving DecidableEq, Repr

inductive DominanceError where
  /-- No node reaches an exit. -/
  | noExit (block : Nat)
  /-- The parents did not reach a fixpoint. -/
  | unsettled
  deriving DecidableEq, Repr

def DominanceError.message : DominanceError → String
  | .noExit block => s!"block {block} cannot reach a method exit"
  | .unsettled => "post-dominators do not settle"

namespace PostDominance

/-- Successors, the exit standing in for those of a node without any. -/
def waysOut (g : Digraph) (i : Nat) : List Nat :=
  if (g.succs i).isEmpty then [g.size] else g.succs i

def orderOf (g : Digraph) : List Nat := Search.order g.size g.tails g.reverse.succs

/-- Per position, the positions of the successors. -/
def waysIn (g : Digraph) (order : List Nat) : List (List Nat) :=
  order.map fun node => (waysOut g node).filterMap fun s => order.idxOf? s

/-- The node above `node` in the tree, unless that is the exit. -/
def above (order : List Nat) (t : Table) (size node : Nat) : Option Nat := do
  let i ← order.idxOf? node
  let p ← parent t i
  let d ← order[p]?
  if d = size then none else some d

def compute (g : Digraph) : Except DominanceError PostDominance :=
  let order := orderOf g
  if 0 < g.size && (List.range g.size).all fun i => !order.contains i then .error (.noExit 0)
  else
    match settle (waysIn g order) (rounds order.length) (start order.length) with
    | none => .error .unsettled
    | some t => .ok ⟨g.size, order, (List.range g.size).map (above order t g.size)⟩

def immediate? (p : PostDominance) (i : Nat) : Option Nat := p.immediate.getD i none

/-- Puts a node into the list of its immediate post-dominator. -/
def hang (p : PostDominance) (lists : Lists) (node : Nat) : Lists :=
  match p.immediate? node with
  | some d => lists.push d node
  | none => lists

/-- Every node but the exit, below its immediate post-dominator. -/
def below (p : PostDominance) : Lists := p.order.tail.foldl p.hang fun _ => []

/-- Nodes whose immediate post-dominator is `i`, ascending. -/
def children (p : PostDominance) (i : Nat) : List Nat := Ascending.sort (p.below i)

/-- Nodes that cannot reach an exit, ascending. -/
def stuck (p : PostDominance) : List Nat :=
  (List.range p.size).filter fun i => !p.order.contains i

/-- The nodes that reach an exit, every one before its post-dominators. -/
def bottomUp (p : PostDominance) : List Nat := p.order.reverse.filter fun i => i ≠ p.size

end PostDominance
end ProgramDependence
