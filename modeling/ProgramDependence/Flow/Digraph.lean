/-! Directed graphs on the numbers below a size, as one list of successors per node. -/
namespace ProgramDependence

structure Digraph where
  next : List (List Nat)
  deriving DecidableEq, Repr

/-- One list per node. -/
abbrev Lists := Nat → List Nat

/-- Puts a number at the end of the list of node `i`. -/
def Lists.push (lists : Lists) (i n : Nat) : Lists := fun j => if j = i then lists j ++ [n] else lists j

namespace Digraph

def size (g : Digraph) : Nat := g.next.length

def succs (g : Digraph) (i : Nat) : List Nat := g.next.getD i []

/-- Predecessors: every node in turn is put into the lists of its successors. -/
def preds (g : Digraph) : Lists :=
  (List.range g.size).foldl (fun lists i => (g.succs i).foldl (fun lists j => lists.push j i) lists)
    fun _ => []

def reverse (g : Digraph) : Digraph := ⟨(List.range g.size).map g.preds⟩

/-- Nodes without predecessors. -/
def heads (g : Digraph) : List Nat := (List.range g.size).filter fun i => (g.preds i).isEmpty

/-- Nodes without successors. -/
def tails (g : Digraph) : List Nat := (List.range g.size).filter fun i => (g.succs i).isEmpty

end Digraph
end ProgramDependence
