import ProgramDependence.Proofs.PostDominance.Granularity

/-! The tree and the frontiers of a body's blocks, said in terms of ways out alone. The node above a node is
the first of all that every way out of it goes on to, and a frontier is made of the nodes where a way out
can still turn away. -/
namespace ProgramDependence

namespace Digraph

/-- Every way out of `b` goes on to `d`, which is another node. -/
def StrictlyPostDominates (g : Digraph) (d b : Nat) : Prop := d ≠ b ∧ g.PostDominates d b

/-- The strict post-dominator that every path out of `b` reaches before all others. -/
structure Nearest (g : Digraph) (d b : Nat) : Prop where
  strict : g.StrictlyPostDominates d b
  before : ∀ e, g.StrictlyPostDominates e b → g.PostDominates e d

end Digraph

namespace PostDominance

variable {g : Digraph} {tree : PostDominance} {b d n : Nat}

/-- The node a number of steps up the tree, if the tree is that high there. -/
def climb (tree : PostDominance) : Nat → Nat → Option Nat
  | 0, b => some b
  | n + 1, b => (tree.immediate? b).bind (climb tree n)

/-- A tree of post-dominators agrees with its graph. -/
structure Exact (g : Digraph) (tree : PostDominance) : Prop where
  stuck_ascending : tree.stuck.Pairwise (· < ·)
  mem_stuck : ∀ b, b ∈ tree.stuck ↔ b < g.size ∧ g.Stuck b
  immediate_iff : ∀ b d, ¬g.Stuck b → (tree.immediate? b = some d ↔ g.Nearest d b)
  immediate_none : ∀ b, ¬g.Stuck b → (tree.immediate? b = none ↔ ¬∃ d, g.StrictlyPostDominates d b)
  immediate_of_stuck : ∀ b, g.Stuck b → tree.immediate? b = none
  children_ascending : ∀ d, (tree.children d).Pairwise (· < ·)
  mem_children : ∀ b d, b ∈ tree.children d ↔ tree.immediate? b = some d
  climb_ends : ∀ b, ∃ n, tree.climb n b = none

namespace IsTree

theorem nearest_of_immediate (isTree : IsTree g tree) (found : tree.immediate? b = some d) :
    g.Nearest d b where
  strict := ⟨(isTree.immediate found).2, (isTree.immediate found).1⟩
  before e strict := by
    rcases (isTree.step b e (isTree.above b d found).1).mp strict.2 with same | ⟨d', found', higher⟩
    · exact absurd same strict.1
    · obtain rfl := Option.some.inj (found.symm.trans found')
      exact higher

/-- A node with a strict post-dominator has a node above it. -/
theorem exists_immediate (isTree : IsTree g tree) (free : ¬g.Stuck b)
    (strict : g.StrictlyPostDominates d b) : ∃ e, tree.immediate? b = some e := by
  rcases (isTree.step b d free).mp strict.2 with same | ⟨e, found, _⟩
  · exact absurd same strict.1
  · exact ⟨e, found⟩

/-- Two nearest post-dominators post-dominate each other, so there is only one. -/
theorem immediate_of_nearest (isTree : IsTree g tree) (free : ¬g.Stuck b) (nearest : g.Nearest d b) :
    tree.immediate? b = some d := by
  obtain ⟨e, found⟩ := isTree.exists_immediate free nearest.strict
  have above := isTree.nearest_of_immediate found
  have freeAbove := nearest.strict.2.not_stuck free
  rw [found, isTree.antisymm freeAbove (nearest.before e above.strict) (above.before d nearest.strict)]

theorem immediate_eq_none_iff (isTree : IsTree g tree) (free : ¬g.Stuck b) :
    tree.immediate? b = none ↔ ¬∃ d, g.StrictlyPostDominates d b := by
  constructor
  · rintro none ⟨d, strict⟩
    obtain ⟨e, found⟩ := isTree.exists_immediate free strict
    cases none.symm.trans found
  · intro nothing
    cases found : tree.immediate? b with
    | none => rfl
    | some d => exact absurd ⟨d, (isTree.nearest_of_immediate found).strict⟩ nothing

theorem immediate_of_stuck (isTree : IsTree g tree) (stuck : g.Stuck b) : tree.immediate? b = none := by
  cases found : tree.immediate? b with
  | none => rfl
  | some d => exact absurd stuck (isTree.above b d found).1

/-- Every step up the tree goes to an earlier place in the order. -/
theorem climb_eq_none (isTree : IsTree g tree) (enough : tree.order.idxOf b < n) :
    tree.climb n b = none := by
  induction n generalizing b with
  | zero => omega
  | succ n ih =>
    rw [climb]
    cases found : tree.immediate? b with
    | none => rfl
    | some d =>
      have lower := (isTree.above b d found).2.2
      exact ih (by omega)

theorem toExact (isTree : IsTree g tree) : Exact g tree where
  stuck_ascending := List.pairwise_lt_range.filter _
  mem_stuck := (Frontiers.isTree_exact isTree).mem_stuck
  immediate_iff _ _ free := ⟨isTree.nearest_of_immediate, isTree.immediate_of_nearest free⟩
  immediate_none _ free := isTree.immediate_eq_none_iff free
  immediate_of_stuck _ stuck := isTree.immediate_of_stuck stuck
  children_ascending := Frontiers.children_ascending isTree
  mem_children _ _ := Frontiers.mem_children isTree
  climb_ends b := ⟨tree.order.idxOf b + 1, isTree.climb_eq_none (Nat.lt_succ_self _)⟩

end IsTree
end PostDominance

/-! ### Frontiers -/

namespace Frontiers

open PostDominance (IsTree)

variable {g : Digraph} {tree : PostDominance} {x y : Nat}

theorem compute_ok (closed : g.Closed) {frontiers : Frontiers} (found : compute g = .ok frontiers) :
    ∃ tree, IsTree g tree ∧ frontiers = ⟨tree, setsOf g tree⟩ := by
  rcases PostDominance.compute_cases closed with ⟨_, failed⟩ | ⟨_, tree, settled, isTree⟩
  · simp only [compute, failed] at found
    cases found
  · simp only [compute, settled] at found
    cases found
    exact ⟨tree, isTree, rfl⟩

/-- A stuck node never has a turn. -/
theorem setsOf_of_stuck (isTree : IsTree g tree) (stuck : g.Stuck y) :
    (setsOf g tree).getD y [] = [] := by
  by_cases bound : y < g.size
  · have absent : y ∉ tree.bottomUp := fun member => (mem_bottomUp isTree bound).mp member stuck
    rw [setsOf, foldl_set_other _ _ _ absent]
    simp [List.getD_eq_getElem?_getD, bound]
  · have length : (setsOf g tree).length = g.size := by
      rw [setsOf, length_foldl_set, List.length_replicate]
    simp [List.getD_eq_getElem?_getD, length, bound]

theorem setsOf_ascending (isTree : IsTree g tree) (free : ¬g.Stuck y) :
    ((setsOf g tree).getD y []).Pairwise (· < ·) := by
  rw [setsOf_eq isTree free]
  exact Ascending.ofList_ascending _

end Frontiers

/-! ### Blocks -/

/-- Post-dominators of blocks are found unless there are blocks and none has a way out, and what is found
is exact. -/
theorem block_postDominators_exact (b : Body) (policy : Policy) {flow : Digraph}
    (ok : b.flow? = .ok flow) :
    let g := (Partition.compute policy b.stmts flow).graph
    ((∃ e, PostDominance.compute g = .error e) ↔ 0 < g.size ∧ ∀ k < g.size, g.Stuck k) ∧
      ∀ tree, PostDominance.compute g = .ok tree → tree.Exact g := by
  intro g
  have closed : g.Closed := (Body.isBasic ok policy).graph_closed
  rcases PostDominance.compute_cases closed with ⟨noExit, failed⟩ | ⟨hasExit, tree, found, isTree⟩
  · refine ⟨⟨fun _ => noExit, fun _ => ⟨_, failed⟩⟩, fun tree found => ?_⟩
    cases found.symm.trans failed
  · constructor
    · refine ⟨?_, fun noExit => absurd noExit hasExit⟩
      rintro ⟨e, failed⟩
      cases found.symm.trans failed
    · intro tree' found'
      obtain rfl := Except.ok.inj (found.symm.trans found')
      exact isTree.toExact

/-- A loop that is entered at either of its branches, then two returns and a loop without a way out. -/
def doubleEntry : Body where
  locals := [⟨"n", "int"⟩]
  code := [
    ⟨.branch (.localVar "n") 2, .zero⟩,
    ⟨.branch (.localVar "n") 3, .zero⟩,
    ⟨.branch (.localVar "n") 1, .zero⟩,
    ⟨.branch (.localVar "n") 5, .zero⟩,
    ⟨.ret none, .zero⟩,
    ⟨.branch (.localVar "n") 7, .zero⟩,
    ⟨.ret none, .zero⟩,
    ⟨.goto 7, .zero⟩]

def doubleEntryFlow : Digraph := ⟨[[1, 2], [2, 3], [1, 3], [4, 5], [], [6, 7], [], [7]]⟩

theorem doubleEntry_postDominators : doubleEntry.flow? = .ok doubleEntryFlow ∧
    ∃ tree, PostDominance.compute
        (Partition.compute .expanded doubleEntry.stmts doubleEntryFlow).graph = .ok tree ∧
      (tree.stuck, tree.immediate) =
        ([7], [some 3, some 3, some 3, none, none, some 6, none, none]) ∧
      tree.Exact (Partition.compute .expanded doubleEntry.stmts doubleEntryFlow).graph := by
  have ok : doubleEntry.flow? = .ok doubleEntryFlow := by rfl
  exact ⟨ok, _, rfl, by decide, (block_postDominators_exact doubleEntry .expanded ok).2 _ rfl⟩

/-- The frontier of a block holds exactly the blocks with a successor that it post-dominates and that it
does not strictly post-dominate themselves. -/
theorem block_frontiers_exact (b : Body) (policy : Policy) {flow : Digraph} {frontiers : Frontiers}
    (ok : b.flow? = .ok flow)
    (found : Frontiers.compute (Partition.compute policy b.stmts flow).graph = .ok frontiers) (y : Nat) :
    let g := (Partition.compute policy b.stmts flow).graph
    (g.Stuck y → frontiers.frontier y = []) ∧
      (¬g.Stuck y → (frontiers.frontier y).Pairwise (· < ·) ∧
        ∀ x, x ∈ frontiers.frontier y ↔
          (∃ s ∈ g.succs x, ¬g.Stuck s ∧ g.PostDominates y s) ∧ ¬g.StrictlyPostDominates y x) := by
  intro g
  have closed : g.Closed := (Body.isBasic ok policy).graph_closed
  obtain ⟨tree, isTree, rfl⟩ := Frontiers.compute_ok closed found
  refine ⟨Frontiers.setsOf_of_stuck isTree, fun free => ⟨Frontiers.setsOf_ascending isTree free, ?_⟩⟩
  intro x
  rw [(Frontiers.isTree_exact isTree).mem_frontier x y free, Frontiers.governs_iff,
    Digraph.StrictlyPostDominates, ne_comm]

theorem doubleEntry_frontiers : doubleEntry.flow? = .ok doubleEntryFlow ∧ ∃ frontiers,
    Frontiers.compute (Partition.compute .expanded doubleEntry.stmts doubleEntryFlow).graph =
      .ok frontiers ∧
    frontiers.sets = [[], [0, 2], [0, 1], [], [3], [3], [3], []] ∧
    ∀ y, let g := (Partition.compute .expanded doubleEntry.stmts doubleEntryFlow).graph
      (g.Stuck y → frontiers.frontier y = []) ∧
        (¬g.Stuck y → (frontiers.frontier y).Pairwise (· < ·) ∧
          ∀ x, x ∈ frontiers.frontier y ↔
            (∃ s ∈ g.succs x, ¬g.Stuck s ∧ g.PostDominates y s) ∧ ¬g.StrictlyPostDominates y x) := by
  have ok : doubleEntry.flow? = .ok doubleEntryFlow := by rfl
  exact ⟨ok, _, rfl, by decide, block_frontiers_exact doubleEntry .expanded ok rfl⟩

end ProgramDependence
