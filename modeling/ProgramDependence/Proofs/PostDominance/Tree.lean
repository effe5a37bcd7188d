import ProgramDependence.Proofs.PostDominance.Paths

/-! The tree is that of post-dominance: what post-dominates a node is the node itself or
post-dominates the one above it. -/
namespace ProgramDependence

namespace PostDominance

variable {g : Digraph} {i j k b d : Nat} {path positions : List Nat}

/-- The positions of nodes, in the same order. -/
abbrev Along (g : Digraph) : List Nat → List Nat → Prop :=
  List.Forall₂ fun i b => (orderOf g)[i]? = some b

theorem Along.mem_iff (along : Along g positions path) (there : (orderOf g)[i]? = some b) :
    i ∈ positions ↔ b ∈ path := by
  induction along with
  | nil => simp
  | @cons j d positions path here _ ih =>
    have same : i = j ↔ b = d := by
      constructor
      · rintro rfl
        exact Option.some.inj (there.symm.trans here)
      · rintro rfl
        exact orderOf_inj there here
    simp only [List.mem_cons, same, ih]

/-- A way out is a way to the root, with the exit at its end. -/
theorem toRoot_of_exitPath (closed : g.Closed) (way : g.ExitPath b path)
    (there : (orderOf g)[i]? = some b) :
    ∃ positions, ToRoot (waysIn g (orderOf g)) i positions ∧ Along g positions (path ++ [g.size]) := by
  induction way generalizing i with
  | @exit b bound none =>
    have edge : 0 ∈ (waysIn g (orderOf g)).getD i [] := by
      refine (mem_waysIn there).mpr ⟨g.size, ?_, orderOf_zero g⟩
      rw [waysOut_of_tail none]
      exact List.mem_singleton_self _
    exact ⟨[i, 0], .step ((orderOf_lt there).mp bound) edge .root,
      .cons there (.cons (orderOf_zero g) .nil)⟩
  | @step b s path link more ih =>
    have free : ¬g.Stuck s := Digraph.not_stuck.mpr ⟨path, more⟩
    obtain ⟨j, found⟩ := exists_position closed free
    obtain ⟨positions, rest, along⟩ := ih found
    have edge : j ∈ (waysIn g (orderOf g)).getD i [] := by
      refine (mem_waysIn there).mpr ⟨s, ?_, found⟩
      rw [waysOut_of_succ link]
      exact link
    have bound := Digraph.lt_of_mem_succs link
    exact ⟨i :: positions, .step ((orderOf_lt there).mp bound) edge rest, .cons there along⟩

theorem exitPath_of_toRoot (closed : g.Closed)
    (way : ToRoot (waysIn g (orderOf g)) i positions) (notRoot : i ≠ 0)
    (there : (orderOf g)[i]? = some b) :
    ∃ path, g.ExitPath b path ∧ Along g positions (path ++ [g.size]) := by
  induction way generalizing b with
  | root => exact absurd rfl notRoot
  | @step i j positions _ edge rest ih =>
    have bound := (orderOf_lt there).mpr notRoot
    obtain ⟨s, out, found⟩ := (mem_waysIn there).mp edge
    by_cases root : j = 0
    · subst root
      obtain rfl : g.size = s := Option.some.inj ((orderOf_zero g).symm.trans found)
      have none : g.succs b = [] := by
        by_contra some
        have link : g.size ∈ g.succs b := by simpa [waysOut, some] using out
        exact Nat.lt_irrefl _ (closed b g.size link)
      cases rest with
      | root => exact ⟨[b], .exit bound none, .cons there (.cons (orderOf_zero g) .nil)⟩
      | step other _ _ => exact absurd rfl other
    · obtain ⟨path, more, along⟩ := ih root found
      have link : s ∈ g.succs b := by
        have small := (orderOf_lt found).mpr root
        by_cases none : g.succs b = []
        · rw [waysOut_of_tail none] at out
          have := List.mem_singleton.mp out
          omega
        · simpa [waysOut, none] using out
      exact ⟨b :: path, .step link more, .cons there along⟩

theorem dominates_iff (closed : g.Closed) (there : (orderOf g)[i]? = some b) (bound : b < g.size)
    (here : (orderOf g)[k]? = some d) (small : d < g.size) :
    Dominates (waysIn g (orderOf g)) k i ↔ g.PostDominates d b := by
  have drop (path : List Nat) : d ∈ path ++ [g.size] ↔ d ∈ path := by
    have differs : d ≠ g.size := by omega
    simp [differs]
  constructor
  · intro dominates path way
    obtain ⟨positions, toRoot, along⟩ := toRoot_of_exitPath closed way there
    exact (drop path).mp ((along.mem_iff here).mp (dominates positions toRoot))
  · intro dominates positions toRoot
    obtain ⟨path, way, along⟩ := exitPath_of_toRoot closed toRoot ((orderOf_lt there).mp bound) there
    exact (along.mem_iff here).mpr ((drop path).mpr (dominates path way))

/-! ### The result -/

/-- What the tree of a graph says of the ways out of it. -/
structure IsTree (g : Digraph) (tree : PostDominance) : Prop where
  size : tree.size = g.size
  nodup : tree.order.Nodup
  mem_order : ∀ b < g.size, b ∈ tree.order ↔ ¬g.Stuck b
  /-- The node above comes earlier in the order. -/
  above : ∀ b d, tree.immediate? b = some d → ¬g.Stuck b ∧ ¬g.Stuck d ∧
    tree.order.idxOf d < tree.order.idxOf b
  step : ∀ b d, ¬g.Stuck b →
    (g.PostDominates d b ↔ d = b ∨ ∃ e, tree.immediate? b = some e ∧ g.PostDominates d e)

theorem immediate?_eq {t : Table} (bound : b < g.size) :
    immediate? ⟨g.size, orderOf g, (List.range g.size).map (above (orderOf g) t g.size)⟩ b =
      above (orderOf g) t g.size b := by
  simp [immediate?, List.getD_eq_getElem?_getD, bound]

theorem above_eq_some {t : Table} : above (orderOf g) t g.size b = some d ↔
    ∃ i p, (orderOf g)[i]? = some b ∧ parent t i = some p ∧ (orderOf g)[p]? = some d ∧
      d ≠ g.size := by
  simp only [above, Option.bind_eq_bind, Option.bind_eq_some_iff, idxOf?_orderOf]
  constructor
  · rintro ⟨i, there, p, up, e, here, last⟩
    split at last
    · cases last
    next differs =>
      obtain rfl := Option.some.inj last
      exact ⟨i, p, there, up, here, differs⟩
  · rintro ⟨i, p, there, up, here, differs⟩
    exact ⟨i, there, p, up, d, here, if_neg differs⟩

theorem idxOf_orderOf (there : (orderOf g)[i]? = some b) : (orderOf g).idxOf b = i := by
  obtain ⟨bound, rfl⟩ := List.getElem?_eq_some_iff.mp there
  exact (orderOf_nodup g).idxOf_getElem i bound

section Settled

variable {t : Table} (closed : g.Closed) (settled : Settled (waysIn g (orderOf g)) t)
include closed settled

theorem above_lower (found : above (orderOf g) t g.size b = some d) (bound : b < g.size) :
    ¬g.Stuck b ∧ ¬g.Stuck d ∧ (orderOf g).idxOf d < (orderOf g).idxOf b := by
  obtain ⟨i, p, there, up, here, differs⟩ := above_eq_some.mp found
  have lower := (settled.falling.lower i p ((orderOf_lt there).mp bound) up).1
  have small : d < g.size := by
    have := Search.order_le (search_inside g) (List.mem_of_getElem? here)
    omega
  refine ⟨(mem_orderOf closed bound).mp (List.mem_of_getElem? there),
    (mem_orderOf closed small).mp (List.mem_of_getElem? here), ?_⟩
  rw [idxOf_orderOf there, idxOf_orderOf here]
  exact lower

theorem onChain_iff_postDominates (there : (orderOf g)[i]? = some b) (bound : b < g.size)
    (here : (orderOf g)[k]? = some d) (small : d < g.size) :
    OnChain t i k ↔ g.PostDominates d b := by
  have inside : i < (waysIn g (orderOf g)).length := by
    simpa [waysIn] using (List.getElem?_eq_some_iff.mp there).1
  rw [settled.onChain_iff i inside, dominates_iff closed there bound here small]

theorem above_postDominates (found : above (orderOf g) t g.size b = some d) (bound : b < g.size) :
    g.PostDominates d b := by
  obtain ⟨i, p, there, up, here, _⟩ := above_eq_some.mp found
  have small := Digraph.lt_of_not_stuck (above_lower closed settled found bound).2.1
  have chain : OnChain t i p := .up ((orderOf_lt there).mp bound) up (.refl p)
  exact (onChain_iff_postDominates closed settled there bound here small).mp chain

/-- A strict post-dominator is on the chain of the node above. -/
theorem exists_above (free : ¬g.Stuck b) (dominates : g.PostDominates d b) (differs : d ≠ b) :
    ∃ e, above (orderOf g) t g.size b = some e ∧ g.PostDominates d e := by
  have bound := Digraph.lt_of_not_stuck free
  have freeAbove := dominates.not_stuck free
  have small := Digraph.lt_of_not_stuck freeAbove
  obtain ⟨i, there⟩ := exists_position closed free
  obtain ⟨k, here⟩ := exists_position closed freeAbove
  have notRoot := (orderOf_lt there).mp bound
  have inside : i < (orderOf g).length := (List.getElem?_eq_some_iff.mp there).1
  obtain ⟨p, up⟩ := Option.isSome_iff_exists.mp
    (settled.defined i (by simpa [waysIn] using inside))
  have chain := (onChain_iff_postDominates closed settled there bound here small).mpr dominates
  have positions : k ≠ i := by
    rintro rfl
    exact differs (Option.some.inj (here.symm.trans there))
  have higher := chain.of_ne positions up
  have lower := (settled.falling.lower i p notRoot up).1
  have notTop : p ≠ 0 := by
    have := higher.le settled.falling
    have := (orderOf_lt here).mp small
    omega
  have parentThere := List.getElem?_eq_getElem (l := orderOf g) (i := p) (by omega)
  have parentSmall := (orderOf_lt parentThere).mpr notTop
  refine ⟨_, above_eq_some.mpr ⟨i, p, there, up, parentThere, by omega⟩, ?_⟩
  exact (onChain_iff_postDominates closed settled parentThere parentSmall here small).mp higher

theorem settled_isTree :
    IsTree g ⟨g.size, orderOf g, (List.range g.size).map (above (orderOf g) t g.size)⟩ := by
  refine ⟨rfl, orderOf_nodup g, fun b bound => mem_orderOf closed bound, ?_, ?_⟩
  · intro b d found
    have bound : b < g.size := by
      by_contra large
      simp [immediate?, List.getD_eq_getElem?_getD, large] at found
    rw [immediate?_eq bound] at found
    exact above_lower closed settled found bound
  · intro b d free
    have bound := Digraph.lt_of_not_stuck free
    rw [immediate?_eq bound]
    constructor
    · intro dominates
      by_cases same : d = b
      · exact .inl same
      · exact .inr (exists_above closed settled free dominates same)
    · rintro (rfl | ⟨e, found, dominates⟩)
      · exact .refl g d
      · exact dominates.trans (above_postDominates closed settled found bound)

end Settled

/-- Either no node has a way out, or the tree of post-dominance is found. -/
theorem compute_cases (closed : g.Closed) :
    ((0 < g.size ∧ ∀ b < g.size, g.Stuck b) ∧ compute g = .error (.noExit 0)) ∨
      (¬(0 < g.size ∧ ∀ b < g.size, g.Stuck b) ∧ ∃ tree, compute g = .ok tree ∧ IsTree g tree) := by
  have noExit : (0 < g.size && (List.range g.size).all fun i => !(orderOf g).contains i) = true ↔
      0 < g.size ∧ ∀ b < g.size, g.Stuck b := by
    simp only [Bool.and_eq_true, decide_eq_true_eq, List.all_eq_true, List.mem_range,
      Bool.not_eq_true', List.contains_eq_mem, decide_eq_false_iff_not]
    refine and_congr_right fun _ => forall_congr' fun b => forall_congr' fun bound => ?_
    rw [mem_orderOf closed bound, not_not]
  simp only [compute]
  by_cases none : 0 < g.size ∧ ∀ b < g.size, g.Stuck b
  · rw [if_pos (noExit.mpr none)]
    exact .inl ⟨none, rfl⟩
  · rw [if_neg (mt noExit.mp none)]
    have rooted := waysIn_rooted g
    have length : (waysIn g (orderOf g)).length = (orderOf g).length := by simp [waysIn]
    have enough : (waysIn g (orderOf g)).length + 2 ≤ rounds (orderOf g).length + 0 := by
      rw [length, rounds]
      have := Nat.le_mul_self (orderOf g).length
      omega
    obtain ⟨t, settle, settled⟩ := settle_settled rooted _ (start_progress rooted) enough
      (Nat.succ_pos _)
    rw [length] at settle
    simp only [settle]
    exact .inr ⟨none, _, rfl, settled_isTree closed settled⟩

end PostDominance
end ProgramDependence
