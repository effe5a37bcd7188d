import ProgramDependence.PostDominance.Frontier
import ProgramDependence.Proofs.Ascending
import ProgramDependence.Proofs.PostDominance.Tree

/-! Frontiers hold exactly the nodes that govern: those with a successor that the node post-dominates,
and, unless it is the node itself, a path to an exit that avoids it. -/
namespace ProgramDependence

/-- `y` is control dependent on `x`: it post-dominates a successor of `x` that reaches an exit, and
`x` itself not strictly. -/
def Digraph.Governs (g : Digraph) (x y : Nat) : Prop :=
  (∃ s ∈ g.succs x, ¬g.Stuck s ∧ g.PostDominates y s) ∧
    (x = y ∨ ∃ path, g.ExitPath x path ∧ y ∉ path)

namespace PostDominance.IsTree

variable {g : Digraph} {tree : PostDominance} {b c d s x y : Nat}

theorem immediate (isTree : IsTree g tree) (found : tree.immediate? b = some d) :
    g.PostDominates d b ∧ d ≠ b := by
  obtain ⟨free, _, lower⟩ := isTree.above b d found
  refine ⟨(isTree.step b d free).mpr (.inr ⟨d, found, .refl g d⟩), ?_⟩
  rintro rfl
  exact Nat.lt_irrefl _ lower

/-- Post-dominators other than the node itself come earlier in the order. -/
theorem strict_lt (isTree : IsTree g tree) (free : ¬g.Stuck b) (dominates : g.PostDominates d b)
    (differs : d ≠ b) : tree.order.idxOf d < tree.order.idxOf b := by
  induction rank : tree.order.idxOf b using Nat.strongRecOn generalizing b with
  | _ n ih =>
    subst rank
    rcases (isTree.step b d free).mp dominates with same | ⟨e, found, higher⟩
    · exact absurd same differs
    · obtain ⟨_, freeAbove, lower⟩ := isTree.above b e found
      by_cases same : d = e
      · rw [same]
        exact lower
      · exact Nat.lt_trans (ih _ lower freeAbove higher same rfl) lower

theorem antisymm (isTree : IsTree g tree) (free : ¬g.Stuck b) (first : g.PostDominates d b)
    (second : g.PostDominates b d) : d = b := by
  by_contra differs
  have forth := isTree.strict_lt free first differs
  have back := isTree.strict_lt (first.not_stuck free) second (Ne.symm differs)
  omega

/-- Of two post-dominators of a node one post-dominates the other. -/
theorem comparable (isTree : IsTree g tree) (free : ¬g.Stuck s) (first : g.PostDominates c s)
    (second : g.PostDominates d s) : g.PostDominates c d ∨ g.PostDominates d c := by
  induction rank : tree.order.idxOf s using Nat.strongRecOn generalizing s with
  | _ n ih =>
    subst rank
    rcases (isTree.step s c free).mp first with rfl | ⟨e, found, higher⟩
    · exact .inr second
    · rcases (isTree.step s d free).mp second with rfl | ⟨e', found', higher'⟩
      · exact .inl first
      · obtain rfl := Option.some.inj (found.symm.trans found')
        obtain ⟨_, freeAbove, lower⟩ := isTree.above s e found
        exact ih _ lower freeAbove higher higher' rfl

/-- A node with an edge into what `y` post-dominates: whatever strictly post-dominates it, its
immediate post-dominator does not stand between. -/
theorem immediate_eq (isTree : IsTree g tree) (edge : s ∈ g.succs x) (free : ¬g.Stuck s)
    (strict : x ≠ y ∧ g.PostDominates y x)
    (nearest : ∀ d, g.PostDominates d s → d ≠ x → g.PostDominates d x → g.PostDominates d y) :
    tree.immediate? x = some y := by
  have freeSource := Digraph.not_stuck_of_succ edge free
  rcases (isTree.step x y freeSource).mp strict.2 with same | ⟨d, found, higher⟩
  · exact absurd same.symm strict.1
  · obtain ⟨dominates, differs⟩ := isTree.immediate found
    have reached := nearest d (dominates.succ differs edge) differs dominates
    have freeAbove := strict.2.not_stuck freeSource
    rw [found, isTree.antisymm freeAbove reached higher]

end PostDominance.IsTree

/-! ### The sets -/

namespace Frontiers

open PostDominance (IsTree)

variable {g : Digraph} {tree : PostDominance} {x y k : Nat}

theorem foldl_set_other (update : List (List Nat) → Nat → List Nat) (nodes : List Nat)
    (sets : List (List Nat)) (absent : k ∉ nodes) :
    (nodes.foldl (fun sets node => sets.set node (update sets node)) sets).getD k [] =
      sets.getD k [] := by
  induction nodes generalizing sets with
  | nil => rfl
  | cons node nodes ih =>
    have differs : node ≠ k := fun same => absent (by simp [same])
    have later : k ∉ nodes := fun member => absent (List.mem_cons_of_mem node member)
    rw [List.foldl_cons, ih _ later]
    simp [List.getD_eq_getElem?_getD, differs]

theorem length_foldl_set (update : List (List Nat) → Nat → List Nat) (nodes : List Nat)
    (sets : List (List Nat)) :
    (nodes.foldl (fun sets node => sets.set node (update sets node)) sets).length = sets.length := by
  induction nodes generalizing sets with
  | nil => rfl
  | cons node nodes ih =>
    rw [List.foldl_cons, ih]
    simp

/-- All sets, once every node has had its turn. -/
def setsOf (g : Digraph) (tree : PostDominance) : List (List Nat) :=
  tree.bottomUp.foldl (fun sets node => sets.set node (ofNode g tree sets node))
    (List.replicate g.size [])

theorem idxOf_pairwise {order : List Nat} (distinct : order.Nodup) :
    order.Pairwise fun a b => order.idxOf a < order.idxOf b := by
  refine List.pairwise_iff_getElem.mpr fun i j first second before => ?_
  rw [distinct.idxOf_getElem i first, distinct.idxOf_getElem j second]
  exact before

theorem bottomUp_pairwise (isTree : IsTree g tree) :
    tree.bottomUp.Pairwise fun a b => tree.order.idxOf b < tree.order.idxOf a :=
  (List.pairwise_reverse.mpr (idxOf_pairwise isTree.nodup)).filter _

theorem mem_bottomUp (isTree : IsTree g tree) (bound : y < g.size) :
    y ∈ tree.bottomUp ↔ ¬g.Stuck y := by
  have differs : y ≠ g.size := by omega
  simp [PostDominance.bottomUp, isTree.size, differs, isTree.mem_order y bound]

theorem below_eq_filter (tree : PostDominance) (d : Nat) :
    tree.below d = tree.order.tail.filter fun node => tree.immediate? node = some d := by
  suffices filled : ∀ (nodes : List Nat) (lists : Lists),
      nodes.foldl tree.hang lists d =
        lists d ++ nodes.filter fun node => tree.immediate? node = some d from
    filled tree.order.tail fun _ => []
  intro nodes
  induction nodes with
  | nil => simp
  | cons node nodes ih =>
    intro lists
    rw [List.foldl_cons, ih, List.filter_cons, PostDominance.hang]
    cases above : tree.immediate? node with
    | none => simp
    | some e =>
      by_cases same : e = d
      · simp [Lists.push, same]
      · simp [Lists.push, same, Ne.symm same]

/-- Only the exit comes first in the order, and it is below nothing. -/
theorem mem_tail_of_immediate (isTree : IsTree g tree) (found : tree.immediate? k = some y) :
    k ∈ tree.order.tail := by
  obtain ⟨free, _, lower⟩ := isTree.above k y found
  have member := (isTree.mem_order k (Digraph.lt_of_not_stuck free)).mpr free
  cases order : tree.order with
  | nil =>
    rw [order] at member
    cases member
  | cons first rest =>
    rw [order] at member lower
    rcases List.mem_cons.mp member with rfl | later
    · rw [List.idxOf_cons_self] at lower
      omega
    · exact later

theorem mem_children (isTree : IsTree g tree) : k ∈ tree.children y ↔ tree.immediate? k = some y := by
  rw [PostDominance.children, Ascending.sort_eq_insertionSort, List.mem_insertionSort, below_eq_filter,
    List.mem_filter, decide_eq_true_eq]
  exact ⟨And.right, fun found => ⟨mem_tail_of_immediate isTree found, found⟩⟩

theorem children_ascending (isTree : IsTree g tree) (d : Nat) : (tree.children d).Pairwise (· < ·) := by
  have distinct : (tree.below d).Nodup := by
    rw [below_eq_filter]
    exact isTree.nodup.tail.filter _
  rw [PostDominance.children, Ascending.sort_eq_insertionSort]
  exact ((tree.below d).sortedLE_insertionSort.sortedLT_of_nodup
    ((List.perm_insertionSort _ _).nodup_iff.mpr distinct)).pairwise

/-- When a node has its turn its children have had theirs, and none has another one. -/
theorem setsOf_eq (isTree : IsTree g tree) (free : ¬g.Stuck y) :
    (setsOf g tree).getD y [] = ofNode g tree (setsOf g tree) y := by
  have bound := Digraph.lt_of_not_stuck free
  obtain ⟨before, after, split⟩ := List.append_of_mem ((mem_bottomUp isTree bound).mpr free)
  have ordered := bottomUp_pairwise isTree
  rw [split] at ordered
  have later : ∀ k ∈ after, tree.order.idxOf k < tree.order.idxOf y :=
    (List.pairwise_cons.mp (List.pairwise_append.mp ordered).2.1).1
  generalize earlier : before.foldl (fun sets node => sets.set node (ofNode g tree sets node))
    (List.replicate g.size []) = sets
  have whole : setsOf g tree = after.foldl (fun sets node => sets.set node (ofNode g tree sets node))
      (sets.set y (ofNode g tree sets y)) := by
    rw [setsOf, split, List.foldl_append, earlier, List.foldl_cons]
  have length : sets.length = g.size := by
    rw [← earlier, length_foldl_set, List.length_replicate]
  have here : (setsOf g tree).getD y [] = ofNode g tree sets y := by
    rw [whole, foldl_set_other _ _ _ fun again => Nat.lt_irrefl _ (later y again)]
    simp [List.getD_eq_getElem?_getD, length, bound]
  have child (c : Nat) (member : c ∈ tree.children y) :
      (setsOf g tree).getD c [] = sets.getD c [] := by
    have lower := (isTree.above c y ((mem_children isTree).mp member)).2.2
    have differs : y ≠ c := by
      rintro rfl
      exact Nat.lt_irrefl _ lower
    rw [whole, foldl_set_other _ _ _ fun again => Nat.lt_asymm lower (later c again)]
    simp [List.getD_eq_getElem?_getD, differs]
  have same : (tree.children y).flatMap (fun c => sets.getD c []) =
      (tree.children y).flatMap fun c => (setsOf g tree).getD c [] :=
    List.flatMap_congr fun c member => (child c member).symm
  rw [here, ofNode, ofNode, same]

theorem mem_setsOf (isTree : IsTree g tree) (free : ¬g.Stuck y) :
    x ∈ (setsOf g tree).getD y [] ↔
      (y ∈ g.succs x ∨ ∃ c, tree.immediate? c = some y ∧ x ∈ (setsOf g tree).getD c []) ∧
        tree.immediate? x ≠ some y := by
  rw [setsOf_eq isTree free]
  simp only [ofNode, Ascending.mem_ofList, List.mem_filter, List.mem_append, Digraph.mem_preds,
    List.mem_flatMap, mem_children isTree, decide_eq_true_eq]

theorem governs_iff : g.Governs x y ↔
    (∃ s ∈ g.succs x, ¬g.Stuck s ∧ g.PostDominates y s) ∧ ¬(x ≠ y ∧ g.PostDominates y x) := by
  simp only [Digraph.Governs, Digraph.PostDominates, not_and_or, not_not, not_forall, exists_prop]

/-- What a child passes up is kept unless the node itself is immediately above. -/
theorem governs_of_child (isTree : IsTree g tree) (found : tree.immediate? k = some y)
    (governs : g.Governs x k) (passed : tree.immediate? x ≠ some y) : g.Governs x y := by
  obtain ⟨⟨s, edge, free, dominates⟩, notStrict⟩ := governs_iff.mp governs
  obtain ⟨up, _⟩ := isTree.immediate found
  have freeSource := Digraph.not_stuck_of_succ edge free
  refine governs_iff.mpr ⟨⟨s, edge, free, up.trans dominates⟩, fun strict => passed ?_⟩
  refine isTree.immediate_eq edge free strict fun d atTarget differs atSource => ?_
  -- both `k` and `d` post-dominate the target of the edge, but `k` is not above `d`
  have above : g.PostDominates d k := by
    rcases isTree.comparable free dominates atTarget with below | above
    · by_cases same : x = k
      · subst same
        exact absurd (isTree.antisymm freeSource atSource below) differs
      · exact absurd ⟨same, below.trans atSource⟩ notStrict
    · exact above
  rcases (isTree.step k d (isTree.above k y found).1).mp above with rfl | ⟨e, found', higher⟩
  · exact absurd ⟨Ne.symm differs, atSource⟩ notStrict
  · obtain rfl := Option.some.inj (found.symm.trans found')
    exact higher

theorem governs_of_mem (isTree : IsTree g tree) (free : ¬g.Stuck y)
    (member : x ∈ (setsOf g tree).getD y []) : g.Governs x y := by
  -- children come later in the order
  induction depth : tree.order.length - tree.order.idxOf y using Nat.strongRecOn generalizing y with
  | _ n ih =>
    subst depth
    obtain ⟨source, passed⟩ := (mem_setsOf isTree free).mp member
    rcases source with edge | ⟨c, found, below⟩
    · refine governs_iff.mpr ⟨⟨y, edge, free, .refl g y⟩, fun strict => passed ?_⟩
      exact isTree.immediate_eq edge free strict fun d above _ _ => above
    · obtain ⟨freeChild, _, lower⟩ := isTree.above c y found
      have last : tree.order.idxOf c ≤ tree.order.length := List.idxOf_le_length
      exact governs_of_child isTree found (ih _ (by omega) freeChild below rfl) passed

/-- Nothing below `y` is immediately above a node that `y` is not strictly above. -/
theorem not_immediate (isTree : IsTree g tree) (notStrict : ¬(x ≠ y ∧ g.PostDominates y x))
    (dominates : g.PostDominates y k) : tree.immediate? x ≠ some k := by
  intro found
  obtain ⟨above, differs⟩ := isTree.immediate found
  by_cases same : x = y
  · subst same
    exact differs (isTree.antisymm (isTree.above x k found).1 above dominates)
  · exact notStrict ⟨same, dominates.trans above⟩

/-- From the target of an edge up to `y`, every set on the way has the source of the edge. -/
theorem mem_of_above (isTree : IsTree g tree) (notStrict : ¬(x ≠ y ∧ g.PostDominates y x))
    (free : ¬g.Stuck k) (dominates : g.PostDominates y k)
    (member : x ∈ (setsOf g tree).getD k []) : x ∈ (setsOf g tree).getD y [] := by
  induction rank : tree.order.idxOf k using Nat.strongRecOn generalizing k with
  | _ n ih =>
    subst rank
    rcases (isTree.step k y free).mp dominates with rfl | ⟨d, found, higher⟩
    · exact member
    · obtain ⟨_, freeAbove, lower⟩ := isTree.above k d found
      refine ih _ lower freeAbove higher ?_ rfl
      exact (mem_setsOf isTree freeAbove).mpr
        ⟨.inr ⟨k, found, member⟩, not_immediate isTree notStrict higher⟩

theorem mem_of_governs (isTree : IsTree g tree) (governs : g.Governs x y) :
    x ∈ (setsOf g tree).getD y [] := by
  obtain ⟨⟨s, edge, free, dominates⟩, notStrict⟩ := governs_iff.mp governs
  refine mem_of_above isTree notStrict free dominates ?_
  exact (mem_setsOf isTree free).mpr ⟨.inl edge, not_immediate isTree notStrict dominates⟩

/-! ### The result -/

/-- What is said of stuck nodes and of frontiers is so. -/
structure Exact (g : Digraph) (frontiers : Frontiers) : Prop where
  nodup : frontiers.stuck.Nodup
  mem_stuck : ∀ b, b ∈ frontiers.stuck ↔ b < g.size ∧ g.Stuck b
  mem_frontier : ∀ x y, ¬g.Stuck y → (x ∈ frontiers.frontier y ↔ g.Governs x y)

theorem isTree_exact (isTree : IsTree g tree) : Exact g ⟨tree, setsOf g tree⟩ where
  nodup := List.nodup_range.filter _
  mem_stuck b := by
    simp only [stuck, PostDominance.stuck, List.mem_filter, List.mem_range, isTree.size,
      Bool.not_eq_true', List.contains_eq_mem, decide_eq_false_iff_not]
    refine and_congr_right fun bound => ?_
    rw [isTree.mem_order b bound, not_not]
  mem_frontier x y free := ⟨governs_of_mem isTree free, mem_of_governs isTree⟩

theorem compute_cases (closed : g.Closed) :
    ((0 < g.size ∧ ∀ b < g.size, g.Stuck b) ∧ compute g = .error (.noExit 0)) ∨
      (¬(0 < g.size ∧ ∀ b < g.size, g.Stuck b) ∧
        ∃ frontiers, compute g = .ok frontiers ∧ Exact g frontiers) := by
  rcases PostDominance.compute_cases closed with ⟨none, failed⟩ | ⟨some, tree, found, isTree⟩
  · exact .inl ⟨none, by simp only [compute, failed]⟩
  · exact .inr ⟨some, _, by simp only [compute, found]; rfl, isTree_exact isTree⟩

end Frontiers
end ProgramDependence
