import ProgramDependence.Ascending
import ProgramDependence.PostDominance.Tree

/-! Post-dominance frontiers: the nodes that a node's execution depends on. A node passes its
frontier up to its immediate post-dominator, and adds its own predecessors; what the node
immediately post-dominates drops out. -/
namespace ProgramDependence

structure Frontiers where
  tree : PostDominance
  sets : List (List Nat)
  deriving DecidableEq, Repr

namespace Frontiers

/-- The frontier of a node whose children have theirs. -/
def ofNode (g : Digraph) (tree : PostDominance) (sets : List (List Nat)) (node : Nat) : List Nat :=
  Ascending.ofList ((g.preds node ++ (tree.children node).flatMap fun c => sets.getD c []).filter
    fun x => tree.immediate? x ≠ some node)

def compute (g : Digraph) : Except DominanceError Frontiers :=
  match PostDominance.compute g with
  | .error e => .error e
  | .ok tree =>
    .ok ⟨tree, tree.bottomUp.foldl (fun sets node => sets.set node (ofNode g tree sets node))
      (List.replicate g.size [])⟩

def frontier (f : Frontiers) (i : Nat) : List Nat := f.sets.getD i []

def stuck (f : Frontiers) : List Nat := f.tree.stuck

end Frontiers
end ProgramDependence
