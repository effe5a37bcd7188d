import ProgramDependence.Proofs.PostDominance.Settle
import ProgramDependence.Proofs.Flow.Search
import ProgramDependence.Proofs.Flow.Walk

/-! Ways out of a graph, and post-dominance as a property of all of them. The order of nodes that
post-dominators are computed over holds exactly the nodes with a way out. -/
namespace ProgramDependence

namespace Digraph

variable {g : Digraph} {a b d s : Nat} {path : List Nat}

/-- The nodes on a way from a node to one without successors, both included. -/
inductive ExitPath (g : Digraph) : Nat → List Nat → Prop where
  | exit {b : Nat} : b < g.size → g.succs b = [] → ExitPath g b [b]
  | step {b s : Nat} {path : List Nat} : s ∈ g.succs b → ExitPath g s path →
      ExitPath g b (b :: path)

/-- No way leads out. -/
def Stuck (g : Digraph) (b : Nat) : Prop := ∀ path, ¬g.ExitPath b path

/-- Every way out of `b` goes through `d`. -/
def PostDominates (g : Digraph) (d b : Nat) : Prop := ∀ path, g.ExitPath b path → d ∈ path

theorem not_stuck : ¬g.Stuck b ↔ ∃ path, g.ExitPath b path := by
  simp [Stuck]

theorem ExitPath.start_mem (way : g.ExitPath b path) : b ∈ path := by
  cases way <;> exact List.mem_cons_self

theorem ExitPath.lt (way : g.ExitPath b path) : b < g.size := by
  cases way with
  | exit bound _ => exact bound
  | step edge _ => exact lt_of_mem_succs edge

theorem lt_of_not_stuck (free : ¬g.Stuck b) : b < g.size := by
  obtain ⟨path, way⟩ := not_stuck.mp free
  exact way.lt

theorem ExitPath.rest (way : g.ExitPath b path) (member : d ∈ path) :
    ∃ tail, g.ExitPath d tail ∧ tail <:+ path := by
  induction way with
  | exit bound none =>
    obtain rfl := List.mem_singleton.mp member
    exact ⟨_, .exit bound none, List.suffix_refl _⟩
  | @step b s path edge more ih =>
    rcases List.mem_cons.mp member with rfl | later
    · exact ⟨_, .step edge more, List.suffix_refl _⟩
    · obtain ⟨tail, rest, isTail⟩ := ih later
      exact ⟨tail, rest, isTail.trans (List.suffix_cons b path)⟩

theorem PostDominates.refl (g : Digraph) (b : Nat) : g.PostDominates b b := fun _ way => way.start_mem

theorem PostDominates.trans (first : g.PostDominates a d) (second : g.PostDominates d b) :
    g.PostDominates a b := by
  intro path way
  obtain ⟨tail, rest, isTail⟩ := way.rest (second path way)
  exact isTail.subset (first tail rest)

theorem PostDominates.succ (dominates : g.PostDominates d b) (differs : d ≠ b)
    (edge : s ∈ g.succs b) : g.PostDominates d s := by
  intro path way
  rcases List.mem_cons.mp (dominates _ (.step edge way)) with same | later
  · exact absurd same differs
  · exact later

theorem PostDominates.not_stuck (dominates : g.PostDominates d b) (free : ¬g.Stuck b) :
    ¬g.Stuck d := by
  obtain ⟨path, way⟩ := Digraph.not_stuck.mp free
  obtain ⟨tail, rest, _⟩ := way.rest (dominates path way)
  exact Digraph.not_stuck.mpr ⟨tail, rest⟩

theorem not_stuck_of_succ (edge : s ∈ g.succs b) (free : ¬g.Stuck s) : ¬g.Stuck b := by
  obtain ⟨path, way⟩ := Digraph.not_stuck.mp free
  exact Digraph.not_stuck.mpr ⟨_, .step edge way⟩

end Digraph

namespace PostDominance

variable {g : Digraph} {i j b d s : Nat}

theorem search_inside (g : Digraph) : Search.Inside g.size g.tails g.reverse.succs where
  roots _ member := (Digraph.mem_tails.mp member).1
  next _ _ _ edge := Digraph.lt_of_mem_succs (Digraph.mem_reverse_succs.mp edge).2

theorem mem_orderOf (closed : g.Closed) (bound : b < g.size) : b ∈ orderOf g ↔ ¬g.Stuck b := by
  rw [orderOf, Search.mem_order (search_inside g) bound, Digraph.not_stuck]
  constructor
  · rintro ⟨r, exit, way⟩
    induction way with
    | refl =>
      obtain ⟨small, none⟩ := Digraph.mem_tails.mp exit
      exact ⟨_, .exit small none⟩
    | tail _ edge ih =>
      obtain ⟨small, link⟩ := Digraph.mem_reverse_succs.mp edge
      obtain ⟨path, way⟩ := ih small
      exact ⟨_, .step link way⟩
  · rintro ⟨path, way⟩
    induction way with
    | @exit b small none => exact ⟨b, Digraph.mem_tails.mpr ⟨small, none⟩, .refl⟩
    | @step b s path link more ih =>
      have small := closed b s link
      obtain ⟨r, exit, back⟩ := ih small
      exact ⟨r, exit, back.tail (Digraph.mem_reverse_succs.mpr ⟨small, link⟩)⟩

theorem orderOf_nodup (g : Digraph) : (orderOf g).Nodup := Search.order_nodup (search_inside g)

theorem orderOf_zero (g : Digraph) : (orderOf g)[0]? = some g.size := by
  obtain ⟨rest, first⟩ := Search.order_first (search_inside g)
  rw [orderOf, first]
  rfl

/-! ### Positions -/

theorem idxOf?_orderOf : (orderOf g).idxOf? b = some i ↔ (orderOf g)[i]? = some b :=
  Search.idxOf?_iff (orderOf_nodup g)

theorem orderOf_inj (first : (orderOf g)[i]? = some b) (second : (orderOf g)[j]? = some b) : i = j := by
  have bound := (List.getElem?_eq_some_iff.mp first).1
  exact (List.getElem?_inj bound (orderOf_nodup g)).mp (first.trans second.symm)

/-- The exit is at the root and nowhere else. -/
theorem orderOf_lt (there : (orderOf g)[i]? = some b) : b < g.size ↔ i ≠ 0 := by
  have le := Search.order_le (search_inside g) (List.mem_of_getElem? there)
  constructor
  · rintro small rfl
    rw [orderOf_zero] at there
    have := Option.some.inj there
    omega
  · intro notRoot
    by_contra large
    obtain rfl : b = g.size := by omega
    exact notRoot (orderOf_inj there (orderOf_zero g))

theorem exists_position (closed : g.Closed) (free : ¬g.Stuck b) :
    ∃ i : Nat, (orderOf g)[i]? = some b :=
  List.mem_iff_getElem?.mp ((mem_orderOf closed (Digraph.lt_of_not_stuck free)).mpr free)

theorem mem_waysIn (there : (orderOf g)[i]? = some b) : j ∈ (waysIn g (orderOf g)).getD i [] ↔
    ∃ s ∈ waysOut g b, (orderOf g)[j]? = some s := by
  simp only [waysIn, List.getD_eq_getElem?_getD, List.getElem?_map, there, Option.map_some,
    Option.getD_some, List.mem_filterMap, idxOf?_orderOf]

theorem waysOut_of_tail (none : g.succs b = []) : waysOut g b = [g.size] := by
  simp [waysOut, none]

theorem waysOut_of_succ (edge : s ∈ g.succs b) : waysOut g b = g.succs b := by
  have some : g.succs b ≠ [] := List.ne_nil_of_mem edge
  simp [waysOut, some]

/-- The search met every node through an earlier one, which its ways lead back to. -/
theorem waysIn_rooted (g : Digraph) : Rooted (waysIn g (orderOf g)) := by
  have length : (waysIn g (orderOf g)).length = (orderOf g).length := by simp [waysIn]
  refine ⟨?_, ?_, ?_⟩
  · rw [length]
    exact (List.getElem?_eq_some_iff.mp (orderOf_zero g)).1
  · intro i j way
    rw [length]
    cases there : (orderOf g)[i]? with
    | none => simp [waysIn, List.getD_eq_getElem?_getD, there] at way
    | some b =>
      obtain ⟨s, _, found⟩ := (mem_waysIn there).mp way
      exact (List.getElem?_eq_some_iff.mp found).1
  · intro i bound notRoot
    rw [length] at bound
    have there := List.getElem?_eq_getElem bound
    have split : orderOf g = (orderOf g).take i ++ (orderOf g)[i] :: (orderOf g).drop (i + 1) := by
      simp
    have notFirst : (orderOf g).take i ≠ [] := by
      intro empty
      rcases List.take_eq_nil_iff.mp empty with zero | none
      · exact notRoot zero
      · simp [none] at bound
    obtain ⟨p, earlier, edge⟩ := Search.order_met (search_inside g) _ _ _ split notFirst
    obtain ⟨j, found⟩ := List.mem_iff_getElem?.mp earlier
    have before : j < i := by
      have := (List.getElem?_eq_some_iff.mp found).1
      simp at this
      omega
    rw [List.getElem?_take_of_lt before] at found
    refine ⟨j, (mem_waysIn there).mpr ⟨p, ?_, found⟩, before⟩
    unfold Search.around at edge
    split at edge
    next root =>
      rw [waysOut_of_tail (Digraph.mem_tails.mp edge).2, root]
      exact List.mem_singleton_self _
    next =>
      have link := (Digraph.mem_reverse_succs.mp edge).2
      rw [waysOut_of_succ link]
      exact link

end PostDominance
end ProgramDependence
