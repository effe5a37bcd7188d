import ProgramDependence.Locals.Liveness
import ProgramDependence.Locals.Reaching
import ProgramDependence.Proofs.Flow.Walk
import ProgramDependence.Proofs.Flow.Worklist

/-! Live locals and reaching definitions are exact: both say that there is a walk on which nothing
strictly between its ends writes the local. -/
namespace ProgramDependence

variable {flow : Digraph} {access : Access} {v i d : Nat}

namespace Digraph

/-- A walk on which nothing between its ends writes the local. -/
def Carries (flow : Digraph) (access : Access) (v a b : Nat) : Prop :=
  ∃ between, flow.Walk a between b ∧ ∀ k ∈ between, access.def? k ≠ some v

theorem Carries.cons (edge : m ∈ flow.succs a) (keeps : access.def? m ≠ some v)
    (rest : Carries flow access v m b) : Carries flow access v a b := by
  obtain ⟨between, walk, clear⟩ := rest
  exact ⟨m :: between, .cons edge walk, by simpa using ⟨keeps, clear⟩⟩

theorem Carries.snoc (start : Carries flow access v a m) (keeps : access.def? m ≠ some v)
    (edge : b ∈ flow.succs m) : Carries flow access v a b := by
  obtain ⟨between, walk, clear⟩ := start
  refine ⟨between ++ [m], walk.snoc edge, ?_⟩
  intro k member
  rcases List.mem_append.mp member with earlier | last
  · exact clear k earlier
  · obtain rfl := List.mem_singleton.mp last
    exact keeps

theorem Carries.edge (edge : b ∈ flow.succs a) : Carries flow access v a b :=
  ⟨[], .edge edge, by simp⟩

theorem Walk.start_lt (walk : flow.Walk a between b) : a < flow.size := by
  cases walk with
  | edge link => exact lt_of_mem_succs link
  | cons link _ => exact lt_of_mem_succs link

end Digraph

/-! ### Reaching definitions -/

namespace Reaching

theorem spread_regular (closed : flow.Closed) (access : Access) : (spread flow access).Regular where
  order := .refl _
  sinks _ _ := Digraph.mem_preds.symm
  inside i j source := by
    have edge : i ∈ flow.succs j := Digraph.mem_preds.mp source
    exact ⟨closed j i edge, Digraph.lt_of_mem_succs edge⟩

theorem mem_own : d ∈ (spread flow access).own i ↔ d = i ∧ ∃ v, access.def? d = some v := by
  simp only [spread]
  constructor
  · intro member
    split at member
    next defines =>
      obtain rfl := List.mem_singleton.mp member
      exact ⟨rfl, Option.isSome_iff_exists.mp defines⟩
    next => cases member
  · rintro ⟨rfl, v, defined⟩
    simp [defined]

theorem passes_iff (defined : access.def? d = some v) :
    (spread flow access).passes i d = true ↔ access.def? i ≠ some v := by
  simp only [spread, defined, Bool.or_eq_true, Option.isNone_iff_eq_none, decide_eq_true_eq, ne_eq]
  constructor
  · rintro (nothing | differs) same
    · cases nothing.symm.trans same
    · exact differs same.symm
  · intro keeps
    exact .inr fun same => keeps same.symm

/-- A definition is held all along a walk that leaves its local alone. -/
theorem holds_along (defined : access.def? d = some v) (holds : (spread flow access).Holds d a)
    (walk : flow.Walk a between i) (clear : ∀ k ∈ between, access.def? k ≠ some v) :
    ∃ j ∈ (spread flow access).sources i, (spread flow access).Holds d j := by
  induction walk with
  | edge edge => exact ⟨_, Digraph.mem_preds.mpr edge, holds⟩
  | @cons a m b between edge _ ih =>
    have keeps := clear m List.mem_cons_self
    exact ih (.pass (Digraph.mem_preds.mpr edge) holds ((passes_iff defined).mpr keeps))
      fun k member => clear k (List.mem_cons_of_mem m member)

/-- A definition gets to an instruction over a walk on which its local is left alone. -/
theorem exists_holds_iff : (∃ j ∈ (spread flow access).sources i, (spread flow access).Holds d j) ↔
    ∃ v, access.def? d = some v ∧ flow.Carries access v d i := by
  constructor
  · rintro ⟨j, source, holds⟩
    have edge : i ∈ flow.succs j := Digraph.mem_preds.mp source
    clear source
    induction holds generalizing i with
    | own own =>
      obtain ⟨rfl, v, defined⟩ := mem_own.mp own
      exact ⟨v, defined, .edge edge⟩
    | pass source _ passes ih =>
      obtain ⟨v, defined, carries⟩ := ih (Digraph.mem_preds.mp source)
      exact ⟨v, defined, carries.snoc ((passes_iff defined).mp passes) edge⟩
  · rintro ⟨v, defined, between, walk, clear⟩
    exact holds_along defined (.own (mem_own.mpr ⟨rfl, v, defined⟩)) walk clear

theorem mem_definitionsAt (closed : flow.Closed) : d ∈ (compute flow access).definitionsAt i ↔
    ∃ v, access.def? d = some v ∧ flow.Carries access v d i := by
  rw [← exists_holds_iff]
  exact Spread.mem_settle_gatheredAt (spread_regular closed access)

theorem definitionsAt_ascending (closed : flow.Closed) (access : Access) (i : Nat) :
    ((compute flow access).definitionsAt i).Pairwise (· < ·) :=
  Spread.settle_gatheredAt_ascending (spread_regular closed access) i

theorem mem_link {sets : List (List Nat)} : (d, u, v) ∈ link access sets ↔
    access.def? d = some v ∧ v ∈ access.usesAt u ∧ d ∈ sets.getD u [] := by
  simp only [link, List.mem_flatMap, List.mem_map, List.mem_filter, Prod.exists, Prod.mk.injEq,
    List.mk_mem_zipIdx_iff_getElem?, decide_eq_true_eq, List.getD_eq_getElem?_getD]
  constructor
  · rintro ⟨reaching, _, there, _, reads, _, ⟨member, defined⟩, rfl, rfl, rfl⟩
    exact ⟨defined, reads, by simpa [there] using member⟩
  · rintro ⟨defined, reads, member⟩
    cases there : sets[u]? with
    | none => simp [there] at member
    | some reaching =>
      refine ⟨reaching, u, there, v, reads, d, ⟨?_, defined⟩, rfl, rfl, rfl⟩
      simpa [there] using member

/-- The reads of one value come in the order of the code, each once. -/
theorem link_ascending {sets : List (List Nat)} (once : ∀ u, (access.usesAt u).Nodup)
    (ordered : ∀ set ∈ sets, set.Pairwise (· < ·)) :
    (link access sets).Pairwise fun a b => a.1 = b.1 → a.2.1 < b.2.1 := by
  rw [link, List.pairwise_flatMap]
  constructor
  · -- At one read there is one local, and a definition reaches it once.
    rintro ⟨reaching, u⟩ member
    rw [List.pairwise_flatMap]
    constructor
    · intro v _
      rw [List.pairwise_map]
      apply ((ordered reaching (List.fst_mem_of_mem_zipIdx member)).filter _).imp
      intro d d' before same
      exact absurd same (Nat.ne_of_lt before)
    · apply (once u).imp
      intro v v' differs a first b second same
      obtain ⟨d, defined, rfl⟩ := List.mem_map.mp first
      obtain ⟨d', defined', rfl⟩ := List.mem_map.mp second
      have defines := of_decide_eq_true (List.mem_filter.mp defined).2
      have defines' := of_decide_eq_true (List.mem_filter.mp defined').2
      change d = d' at same
      rw [same, defines'] at defines
      exact absurd (Option.some.inj defines).symm differs
  · have places : sets.zipIdx.Pairwise fun a b => a.2 < b.2 := by
      rw [← List.pairwise_map (f := Prod.snd), List.zipIdx_map_snd]
      exact List.pairwise_lt_range'
    apply places.imp
    rintro ⟨reaching, u⟩ ⟨reaching', u'⟩ before a first b second _
    simp only [List.mem_flatMap, List.mem_map] at first second
    obtain ⟨_, _, _, _, rfl⟩ := first
    obtain ⟨_, _, _, _, rfl⟩ := second
    exact before

theorem mem_usesOf_iff : (u, v) ∈ (compute flow access).usesOf d ↔
    access.def? d = some v ∧ v ∈ access.usesAt u ∧ d ∈ (compute flow access).definitionsAt u := by
  have whole : (u, v) ∈ (compute flow access).usesOf d ↔
      (d, u, v) ∈ (compute flow access).chains := by
    simp [usesOf]
  exact whole.trans mem_link

/-- The uses of a definition are the reads of its local that it reaches. -/
theorem mem_usesOf (closed : flow.Closed) : (u, v) ∈ (compute flow access).usesOf d ↔
    access.def? d = some v ∧ v ∈ access.usesAt u ∧ flow.Carries access v d u := by
  rw [mem_usesOf_iff, mem_definitionsAt closed]
  constructor
  · rintro ⟨defined, reads, w, also, carries⟩
    obtain rfl := Option.some.inj (defined.symm.trans also)
    exact ⟨defined, reads, carries⟩
  · rintro ⟨defined, reads, carries⟩
    exact ⟨defined, reads, v, defined, carries⟩

theorem usesOf_ascending (closed : flow.Closed) (once : ∀ u, (access.usesAt u).Nodup) (d : Nat) :
    ((compute flow access).usesOf d).Pairwise fun a b => a.1 < b.1 := by
  have ordered : ∀ set ∈ (compute flow access).sets, set.Pairwise (· < ·) := by
    intro set member
    obtain ⟨i, there⟩ := List.mem_iff_getElem?.mp member
    have ascending := definitionsAt_ascending closed access i
    rwa [definitionsAt, List.getD_eq_getElem?_getD, there, Option.getD_some] at ascending
  rw [usesOf, List.pairwise_map, List.pairwise_filter]
  apply (link_ascending once ordered).imp
  intro a b before first second
  exact before ((of_decide_eq_true first).trans (of_decide_eq_true second).symm)

end Reaching

/-! ### Live locals -/

namespace Liveness

theorem spread_regular (closed : flow.Closed) (access : Access) : (spread flow access).Regular where
  order := List.reverse_perm _
  sinks _ _ := Digraph.mem_preds
  inside i j edge := ⟨Digraph.lt_of_mem_succs edge, closed i j edge⟩

/-- A local is wanted further on if a walk that leaves it alone comes to a read. -/
theorem exists_holds_iff : (∃ j ∈ (spread flow access).sources i, (spread flow access).Holds v j) ↔
    ∃ r, v ∈ access.usesAt r ∧ flow.Carries access v i r := by
  constructor
  · rintro ⟨j, edge, holds⟩
    induction holds generalizing i with
    | own reads => exact ⟨_, reads, .edge edge⟩
    | pass next _ passes ih =>
      obtain ⟨r, reads, carries⟩ := ih next
      exact ⟨r, reads, .cons edge (of_decide_eq_true passes) carries⟩
  · rintro ⟨r, reads, between, walk, clear⟩
    induction walk with
    | edge edge => exact ⟨_, edge, .own reads⟩
    | @cons a m b between edge _ ih =>
      obtain ⟨j, next, holds⟩ := ih reads fun k member => clear k (List.mem_cons_of_mem m member)
      have keeps := clear m List.mem_cons_self
      exact ⟨m, edge, .pass next holds (decide_eq_true keeps)⟩

theorem mem_after (closed : flow.Closed) : v ∈ (compute flow access).after i ↔
    ∃ r, v ∈ access.usesAt r ∧ flow.Carries access v i r := by
  rw [← exists_holds_iff]
  exact Spread.mem_settle_gatheredAt (spread_regular closed access)

theorem after_ascending (closed : flow.Closed) (access : Access) (i : Nat) :
    ((compute flow access).after i).Pairwise (· < ·) :=
  Spread.settle_gatheredAt_ascending (spread_regular closed access) i

end Liveness
end ProgramDependence
