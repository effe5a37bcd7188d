import Mathlib.Data.List.Perm.Subperm
import ProgramDependence.Proofs.PostDominance.Table

/-! Turns, rounds, and the fixpoint. -/
namespace ProgramDependence.PostDominance

variable {ways : List (List Nat)} {t t' : Table} {i j p c d s r last : Nat} {path : List Nat}

/-- `Descends ways low i` says that some way from `i` to `low` never goes below `low`. -/
inductive Descends (ways : List (List Nat)) (low : Nat) : Nat → Prop where
  | refl : Descends ways low low
  | step {i s : Nat} : low ≤ i → i ≠ 0 → s ∈ ways.getD i [] → Descends ways low s →
      Descends ways low i

theorem Descends.le (descends : Descends ways p i) : p ≤ i := by
  cases descends with
  | refl => exact Nat.le_refl _
  | step bound _ _ _ => exact bound

theorem Descends.trans (first : Descends ways j i) (second : Descends ways p j) :
    Descends ways p i := by
  induction first with
  | refl => exact second
  | step bound notRoot edge _ ih =>
    have := second.le
    exact .step (by omega) notRoot edge ih

/-- What dominates `i` from below `low` dominates `low`. -/
theorem Descends.dominates (descends : Descends ways p i) (below : d < p)
    (dominates : Dominates ways d i) : Dominates ways d p := by
  induction descends with
  | refl => exact dominates
  | @step i s bound notRoot edge _ ih =>
    refine ih fun path way => ?_
    rcases List.mem_cons.mp (dominates (i :: path) (.step notRoot edge way)) with same | later
    · omega
    · exact later

/-- What is known in round `r` after position `last` has had its turn. -/
structure Progress (ways : List (List Nat)) (r last : Nat) (t : Table) : Prop where
  length : t.length = ways.length
  falling : Falling t
  defined : ∀ j ≤ last, j < ways.length → (parent t j).isSome = true
  settled : r = 0 ∨ ∀ j < ways.length, (parent t j).isSome = true
  descends : ∀ j p, j ≠ 0 → parent t j = some p → Descends ways p j
  complete : ∀ j d, (parent t j).isSome = true → Dominates ways d j → OnChain t j d
  sound : ∀ j c path, OnChain t j c → ToRoot ways j path →
    path.length ≤ (if j ≤ last then r + 1 else r) → c ∈ path

theorem OnChain.descends (known : ∀ j p, j ≠ 0 → parent t j = some p → Descends ways p j)
    (chain : OnChain t i c) : Descends ways c i := by
  induction chain with
  | refl => exact .refl
  | up notRoot up _ ih => exact (known _ _ notRoot up).trans ih

/-! ### One entry changed -/

theorem parent_set_here (inside : i < t.length) (p : Nat) :
    parent (t.set i (some p)) i = some p := by
  simp [parent, List.getD_eq_getElem?_getD, inside]

theorem parent_set_other (t : Table) (p : Nat) (differs : j ≠ i) :
    parent (t.set i (some p)) j = parent t j := by
  simp [parent, List.getD_eq_getElem?_getD, differs.symm]

theorem isSome_set (inside : i < t.length) (p : Nat) (known : (parent t j).isSome = true) :
    (parent (t.set i (some p)) j).isSome = true := by
  by_cases same : j = i
  · rw [same, parent_set_here inside]
    rfl
  · rw [parent_set_other t p same]
    exact known

/-! ### One turn -/

/-- The parent that a turn gives: the last position on the chains of all ways that have one. -/
structure Chosen (ways : List (List Nat)) (t : Table) (i p : Nat) : Prop where
  lower : p < i
  defined : (parent t p).isSome = true
  below : ∃ s ∈ ways.getD i [], OnChain t s p
  common : ∀ s ∈ ways.getD i [], (parent t s).isSome = true → OnChain t s p
  last : ∀ c, (∀ s ∈ ways.getD i [], (parent t s).isSome = true → OnChain t s c) → OnChain t p c

theorem turn_chosen (falling : Falling t) (way : s ∈ ways.getD i []) (earlier : s < i)
    (defined : (parent t s).isSome = true) :
    ∃ p, turn ways t i = some (t.set i (some p)) ∧ Chosen ways t i p := by
  have mem_open (q : Nat) : q ∈ ((ways.getD i []).filter fun s => (parent t s).isSome) ↔
      q ∈ ways.getD i [] ∧ (parent t q).isSome = true := List.mem_filter
  unfold turn
  cases opened : (ways.getD i []).filter fun s => (parent t s).isSome with
  | nil =>
    rw [opened] at mem_open
    exact absurd ((mem_open s).mpr ⟨way, defined⟩) List.not_mem_nil
  | cons q more =>
    rw [opened] at mem_open
    obtain ⟨p, folded, common, last⟩ := meet_all falling more ((mem_open q).mp List.mem_cons_self).2
      fun x member => ((mem_open x).mp (List.mem_cons_of_mem q member)).2
    have chain : OnChain t s p := common s ((mem_open s).mpr ⟨way, defined⟩)
    have low := chain.le falling
    refine ⟨p, by simp only [folded, Option.map_some], by omega, chain.isSome falling defined,
      ⟨s, way, chain⟩, fun x edge known => common x ((mem_open x).mpr ⟨edge, known⟩),
      fun c all => last c fun x member => ?_⟩
    obtain ⟨edge, known⟩ := (mem_open x).mp member
    exact all x edge known

namespace Chosen

theorem not_root (chosen : Chosen ways t i p) : i ≠ 0 := by
  have := chosen.lower
  omega

theorem falling (chosen : Chosen ways t i p) (inside : i < t.length) (falling : Falling t) :
    Falling (t.set i (some p)) where
  root := by
    rw [parent_set_other t p chosen.not_root.symm]
    exact falling.root
  lower j q notZero up := by
    by_cases same : j = i
    · subst same
      obtain rfl := Option.some.inj ((parent_set_here inside p).symm.trans up)
      exact ⟨chosen.lower, isSome_set inside p chosen.defined⟩
    · rw [parent_set_other t p same] at up
      obtain ⟨earlier, known⟩ := falling.lower j q notZero up
      exact ⟨earlier, isSome_set inside p known⟩

/-- Above the changed position chains are as they were. -/
theorem onChain_above (chosen : Chosen ways t i p) (inside : i < t.length) (falling : Falling t) :
    OnChain (t.set i (some p)) p c ↔ OnChain t p c := by
  have lower := chosen.lower
  constructor
  · intro chain
    rcases chain.switch fun k differs => (parent_set_other t p differs).symm with kept | ⟨through, _⟩
    · exact kept
    · have := through.le falling
      omega
  · intro chain
    rcases chain.switch fun k differs => parent_set_other t p differs with kept | ⟨through, _⟩
    · exact kept
    · have := through.le (chosen.falling inside falling)
      omega

theorem descends (chosen : Chosen ways t i p) (inside : i < t.length)
    (progress : Progress ways r last t) (j q : Nat) (notZero : j ≠ 0)
    (up : parent (t.set i (some p)) j = some q) : Descends ways q j := by
  by_cases same : j = i
  · subst same
    obtain rfl := Option.some.inj ((parent_set_here inside p).symm.trans up)
    obtain ⟨s, edge, chain⟩ := chosen.below
    exact .step (Nat.le_of_lt chosen.lower) notZero edge (chain.descends progress.descends)
  · exact progress.descends j q notZero ((parent_set_other t p same).symm.trans up)

/-- What dominates the position dominates all its ways, so it is on the chain of their meeting
point. -/
theorem complete (chosen : Chosen ways t i p) (inside : i < t.length)
    (progress : Progress ways r last t) (dominates : Dominates ways d i) :
    OnChain (t.set i (some p)) i d := by
  by_cases same : d = i
  · subst same
    exact .refl d
  · have above : OnChain t p d := by
      refine chosen.last d fun s edge known => progress.complete s d known fun path way => ?_
      rcases List.mem_cons.mp (dominates (i :: path) (.step chosen.not_root edge way)) with
        first | later
      · exact absurd first same
      · exact later
    exact .up chosen.not_root (parent_set_here inside p)
      ((chosen.onChain_above inside progress.falling).mpr above)

/-- A short way from the position is a shorter one from the position it goes to first. -/
theorem sound (chosen : Chosen ways t i p) (inside : i < t.length) (rooted : Rooted ways)
    (progress : Progress ways r last t) (chain : OnChain (t.set i (some p)) i c)
    (way : ToRoot ways i path) (short : path.length ≤ r + 1) : c ∈ path := by
  by_cases same : c = i
  · rw [same]
    exact way.start_mem
  · have above : OnChain t p c := (chosen.onChain_above inside progress.falling).mp
      (chain.of_ne same (parent_set_here inside p))
    cases way with
    | root => exact absurd rfl chosen.not_root
    | @step _ s path _ edge rest =>
      simp only [List.length_cons] at short
      have nonempty : 0 < path.length := List.length_pos_of_mem rest.start_mem
      rcases progress.settled with first | all
      · omega
      · have known := all s (rooted.bounded i s edge)
        have found := progress.sound s c path ((chosen.common s edge known).trans above) rest
          (by split <;> omega)
        exact List.mem_cons_of_mem i found

end Chosen

theorem turn_progress (rooted : Rooted ways) (progress : Progress ways r last t)
    (bound : last + 1 < ways.length) :
    ∃ t', turn ways t (last + 1) = some t' ∧ Progress ways r (last + 1) t' := by
  obtain ⟨s, down, earlier⟩ := rooted.down (last + 1) bound (Nat.succ_ne_zero last)
  have defined := progress.defined s (by omega) (by omega)
  obtain ⟨p, turned, chosen⟩ := turn_chosen progress.falling down earlier defined
  have inside : last + 1 < t.length := by
    rw [progress.length]
    exact bound
  have falling := chosen.falling inside progress.falling
  refine ⟨_, turned, by simpa using progress.length, falling, ?_, ?_,
    chosen.descends inside progress, ?_, ?_⟩
  · intro j low small
    by_cases same : j = last + 1
    · rw [same, parent_set_here inside]
      rfl
    · exact isSome_set inside p (progress.defined j (by omega) small)
  · exact progress.settled.imp_right fun all j small => isSome_set inside p (all j small)
  · intro j d known dominates
    by_cases same : j = last + 1
    · subst same
      exact chosen.complete inside progress dominates
    · rw [parent_set_other t p same] at known
      -- a chain that is no longer what it was now goes through the changed position
      rcases (progress.complete j d known dominates).switch
          fun k differs => parent_set_other t p differs with whole | ⟨through, above⟩
      · exact whole
      · by_cases top : d = last + 1
        · rw [top]
          exact through
        · have below := above.le progress.falling
          have dominatesHere := (through.descends (chosen.descends inside progress)).dominates
            (by omega) dominates
          exact through.trans (chosen.complete inside progress dominatesHere)
  · intro j c path chain way short
    by_cases same : j = last + 1
    · subst same
      exact chosen.sound inside rooted progress chain way (by simpa using short)
    · have level : path.length ≤ if j ≤ last then r + 1 else r := by
        split at short
        · rwa [if_pos (by omega)]
        · rwa [if_neg (by omega)]
      rcases chain.switch fun k differs => (parent_set_other t p differs).symm with
        whole | ⟨through, above⟩
      · exact progress.sound j c path whole way level
      · have onWay := progress.sound j (last + 1) path through way level
        obtain ⟨tail, rest, isTail⟩ := way.rest onWay
        have shorter := isTail.length_le
        have found := chosen.sound inside rooted progress above rest (by split at level <;> omega)
        exact isTail.subset found

/-! ### One round -/

theorem start_parent (size : Nat) (i : Nat) :
    parent (start size) i = if i = 0 then some 0 else none := by
  cases i with
  | zero => rfl
  | succ i =>
    simp only [parent, start, List.getD_cons_succ, Nat.succ_ne_zero, ↓reduceIte]
    by_cases bound : i < size - 1
    · simp [List.getD_eq_getElem?_getD, bound]
    · simp [List.getD_eq_getElem?_getD, bound]

theorem start_progress (rooted : Rooted ways) : Progress ways 0 0 (start ways.length) := by
  have nonempty := rooted.nonempty
  have up (j p : Nat) (notRoot : j ≠ 0) : parent (start ways.length) j ≠ some p := by
    rw [start_parent, if_neg notRoot]
    exact nofun
  refine ⟨by simp [start]; omega, ⟨rfl, fun j p notRoot found => absurd found (up j p notRoot)⟩, ?_,
    .inl rfl, fun j p notRoot found => absurd found (up j p notRoot), ?_, ?_⟩
  · intro j low _
    obtain rfl : j = 0 := by omega
    rfl
  · intro j d known dominates
    by_cases root : j = 0
    · subst root
      obtain rfl : d = 0 := List.mem_singleton.mp (dominates [0] .root)
      exact .refl 0
    · rw [start_parent, if_neg root] at known
      cases known
  · intro j c path chain way _
    cases chain with
    | refl => exact way.start_mem
    | up notRoot found _ => exact absurd found (up j _ notRoot)

theorem turns_progress (rooted : Rooted ways) (count : Nat) (progress : Progress ways r last t)
    (bound : last + count < ways.length) :
    ∃ t', (List.range' (last + 1) count).foldlM (turn ways) t = some t' ∧
      Progress ways r (last + count) t' := by
  induction count generalizing last t with
  | zero => exact ⟨t, rfl, progress⟩
  | succ count ih =>
    obtain ⟨next, turned, more⟩ := turn_progress rooted progress (by omega)
    obtain ⟨t', done, all⟩ := ih more (by omega)
    refine ⟨t', ?_, by rwa [Nat.add_assoc, Nat.add_comm 1] at all⟩
    rw [List.range'_succ, List.foldlM_cons, turned]
    exact done

/-- A round makes the ways that are known to go through a chain longer by one. -/
theorem round_progress (rooted : Rooted ways) (progress : Progress ways r 0 t) :
    ∃ t', round ways t = some t' ∧ Progress ways (r + 1) 0 t' ∧
      ∀ j < ways.length, (parent t' j).isSome = true := by
  have nonempty := rooted.nonempty
  obtain ⟨t', turned, after⟩ := turns_progress rooted (ways.length - 1) progress (by omega)
  rw [Nat.zero_add] at turned after
  have all : ∀ j < ways.length, (parent t' j).isSome = true := fun j small =>
    after.defined j (by omega) small
  refine ⟨t', by rw [round, progress.length]; exact turned, ?_, all⟩
  refine ⟨after.length, after.falling, fun j _ => all j, .inr all, after.descends, after.complete, ?_⟩
  intro j c path chain way short
  by_cases small : j < ways.length
  · by_cases root : j = 0
    · subst root
      cases chain with
      | refl => exact way.start_mem
      | up notRoot _ _ => exact absurd rfl notRoot
    · refine after.sound j c path chain way ?_
      rw [if_neg (by omega)] at short
      rwa [if_pos (by omega)]
  · have none : parent t' j = none := by
      have past : t'.length ≤ j := by
        rw [after.length]
        omega
      simp [parent, List.getD_eq_getElem?_getD, List.getElem?_eq_none past]
    cases chain with
    | refl => exact way.start_mem
    | up _ found _ => exact absurd found (by simp [none])

/-! ### The fixpoint -/

/-- A table whose chains are the dominators. -/
structure Settled (ways : List (List Nat)) (t : Table) : Prop where
  length : t.length = ways.length
  falling : Falling t
  defined : ∀ j < ways.length, (parent t j).isSome = true
  onChain_iff : ∀ j < ways.length, ∀ d, OnChain t j d ↔ Dominates ways d j

/-- Once all ways of the length of the table are covered, all ways are. -/
theorem Progress.settled_of_le (progress : Progress ways r 0 t) (rooted : Rooted ways)
    (enough : ways.length ≤ r) (all : ∀ j < ways.length, (parent t j).isSome = true) :
    Settled ways t where
  length := progress.length
  falling := progress.falling
  defined := all
  onChain_iff j small d := by
    refine ⟨fun chain path way => ?_, progress.complete j d (all j small)⟩
    obtain ⟨simple, way', distinct, sub⟩ := way.simple
    have short : simple.length ≤ ways.length := by
      have within : simple ⊆ List.range ways.length := fun k member =>
        List.mem_range.mpr (way'.lt rooted small member)
      simpa using (List.subperm_of_subset distinct within).length_le
    refine sub d (progress.sound j d simple chain way' ?_)
    split <;> omega

/-- The dominators leave no choice of parents. -/
theorem Settled.parent_le (settled : Settled ways t) (settled' : Settled ways t')
    (small : j < ways.length) (notRoot : j ≠ 0) (up : parent t j = some p)
    (up' : parent t' j = some d) : p ≤ d := by
  have lower := (settled.falling.lower j p notRoot up).1
  have dominates := (settled.onChain_iff j small p).mp (.up notRoot up (.refl p))
  have chain := (settled'.onChain_iff j small p).mpr dominates
  exact (chain.of_ne (by omega) up').le settled'.falling

theorem Settled.unique (settled : Settled ways t) (settled' : Settled ways t') : t = t' := by
  refine List.ext_getElem? fun j => ?_
  by_cases small : j < ways.length
  · have there : j < t.length := by rw [settled.length]; exact small
    have there' : j < t'.length := by rw [settled'.length]; exact small
    have entry (u : Table) (bound : j < u.length) : u[j]? = some (parent u j) := by
      simp [parent, List.getD_eq_getElem?_getD, bound]
    rw [entry t there, entry t' there']
    by_cases root : j = 0
    · rw [root, settled.falling.root, settled'.falling.root]
    · obtain ⟨p, up⟩ := Option.isSome_iff_exists.mp (settled.defined j small)
      obtain ⟨q, up'⟩ := Option.isSome_iff_exists.mp (settled'.defined j small)
      have forth := settled.parent_le settled' small root up up'
      have back := settled'.parent_le settled small root up' up
      rw [up, up', Nat.le_antisymm forth back]
  · rw [List.getElem?_eq_none (by rw [settled.length]; omega),
      List.getElem?_eq_none (by rw [settled'.length]; omega)]

/-- A table that a round leaves as it is covers ways of every length. -/
theorem settled_of_round (rooted : Rooted ways) (progress : Progress ways r 0 t)
    (fixed : round ways t = some t) : Settled ways t := by
  have climb (k : Nat) : Progress ways (r + k) 0 t := by
    induction k with
    | zero => exact progress
    | succ k ih =>
      obtain ⟨t', went, more, _⟩ := round_progress rooted ih
      obtain rfl := Option.some.inj (fixed.symm.trans went)
      exact more
  obtain ⟨t', went, _, all⟩ := round_progress rooted progress
  obtain rfl := Option.some.inj (fixed.symm.trans went)
  exact (climb ways.length).settled_of_le rooted (by omega) all

theorem settle_settled (rooted : Rooted ways) (fuel : Nat) (progress : Progress ways r 0 t)
    (enough : ways.length + 2 ≤ fuel + r) (some_fuel : 0 < fuel) :
    ∃ t', settle ways fuel t = some t' ∧ Settled ways t' := by
  induction fuel generalizing r t with
  | zero => omega
  | succ fuel ih =>
    obtain ⟨after, went, more, all⟩ := round_progress rooted progress
    rw [settle, went]
    by_cases same : after = t
    · subst same
      exact ⟨after, if_pos rfl, settled_of_round rooted progress went⟩
    · have short : r ≤ ways.length := by
        by_contra long
        rcases progress.settled with first | before
        · omega
        · have old := progress.settled_of_le rooted (by omega) before
          exact same ((more.settled_of_le rooted (by omega) all).unique old)
      simp only [if_neg same]
      exact ih more (by omega) (by omega)

end ProgramDependence.PostDominance
