import ProgramDependence.PostDominance.Tree

/-! The table of parents has its fixpoint at the dominators. Positions are numbered so that every one
but the root has a way to an earlier one. The chain of a position is what lies above it in the
table. Two facts hold at every turn. All dominators of a position are on its chain, and what is on
its chain lies on all short ways to the root; each round makes "short" longer by one. -/
namespace ProgramDependence.PostDominance

variable {ways : List (List Nat)} {t t' : Table} {i j p c d s r last : Nat} {path : List Nat}

/-- Ways lead to positions, and from every position but the root one leads to an earlier one. -/
structure Rooted (ways : List (List Nat)) : Prop where
  nonempty : 0 < ways.length
  bounded : ∀ i, ∀ s ∈ ways.getD i [], s < ways.length
  down : ∀ i < ways.length, i ≠ 0 → ∃ s ∈ ways.getD i [], s < i

/-- The positions on a way to the root, both ends included. -/
inductive ToRoot (ways : List (List Nat)) : Nat → List Nat → Prop where
  | root : ToRoot ways 0 [0]
  | step {i s : Nat} {path : List Nat} : i ≠ 0 → s ∈ ways.getD i [] → ToRoot ways s path →
      ToRoot ways i (i :: path)

def Dominates (ways : List (List Nat)) (d i : Nat) : Prop := ∀ path, ToRoot ways i path → d ∈ path

theorem ToRoot.start_mem (way : ToRoot ways i path) : i ∈ path := by
  cases way <;> exact List.mem_cons_self

/-- From any position on a way to the root, the rest of it. -/
theorem ToRoot.rest (way : ToRoot ways i path) (member : j ∈ path) :
    ∃ tail, ToRoot ways j tail ∧ tail <:+ path := by
  induction way with
  | root =>
    obtain rfl := List.mem_singleton.mp member
    exact ⟨[0], .root, List.suffix_refl _⟩
  | @step i s path notRoot edge more ih =>
    rcases List.mem_cons.mp member with rfl | later
    · exact ⟨_, .step notRoot edge more, List.suffix_refl _⟩
    · obtain ⟨tail, rest, short⟩ := ih later
      exact ⟨tail, rest, short.trans (List.suffix_cons i path)⟩

theorem ToRoot.lt (rooted : Rooted ways) (way : ToRoot ways i path) (bound : i < ways.length)
    (member : j ∈ path) : j < ways.length := by
  induction way with
  | root =>
    obtain rfl := List.mem_singleton.mp member
    exact bound
  | @step i s path _ edge _ ih =>
    rcases List.mem_cons.mp member with rfl | later
    · exact bound
    · exact ih (rooted.bounded i s edge) later

/-- A way that comes to a position twice can be cut short. -/
theorem ToRoot.simple (way : ToRoot ways i path) :
    ∃ path', ToRoot ways i path' ∧ path'.Nodup ∧ ∀ j ∈ path', j ∈ path := by
  induction way with
  | root => exact ⟨[0], .root, by simp, by simp⟩
  | @step i s path notRoot edge _ ih =>
    obtain ⟨rest, way, distinct, sub⟩ := ih
    by_cases again : i ∈ rest
    · obtain ⟨tail, short, isTail⟩ := way.rest again
      exact ⟨tail, short, isTail.sublist.nodup distinct,
        fun j member => List.mem_cons_of_mem i (sub j (isTail.subset member))⟩
    · refine ⟨i :: rest, .step notRoot edge way, List.nodup_cons.mpr ⟨again, distinct⟩, ?_⟩
      intro j member
      rcases List.mem_cons.mp member with rfl | later
      · exact List.mem_cons_self
      · exact List.mem_cons_of_mem i (sub j later)

/-! ### Chains -/

/-- Parents lie earlier and have parents themselves. -/
structure Falling (t : Table) : Prop where
  root : parent t 0 = some 0
  lower : ∀ i p, i ≠ 0 → parent t i = some p → p < i ∧ (parent t p).isSome = true

/-- `OnChain t i c` says that `c` is `i` or lies above it. -/
inductive OnChain (t : Table) : Nat → Nat → Prop where
  | refl (i : Nat) : OnChain t i i
  | up {i p c : Nat} : i ≠ 0 → parent t i = some p → OnChain t p c → OnChain t i c

theorem OnChain.trans (first : OnChain t i j) (second : OnChain t j c) : OnChain t i c := by
  induction first with
  | refl => exact second
  | up notRoot up _ ih => exact .up notRoot up (ih second)

theorem OnChain.le (falling : Falling t) (chain : OnChain t i c) : c ≤ i := by
  induction chain with
  | refl => exact Nat.le_refl _
  | up notRoot up _ ih =>
    have := (falling.lower _ _ notRoot up).1
    omega

theorem OnChain.isSome (falling : Falling t) (chain : OnChain t i c)
    (defined : (parent t i).isSome = true) : (parent t c).isSome = true := by
  induction chain with
  | refl => exact defined
  | up notRoot up _ ih => exact ih (falling.lower _ _ notRoot up).2

theorem OnChain.of_ne (chain : OnChain t i c) (differs : c ≠ i) (up : parent t i = some p) :
    OnChain t p c := by
  cases chain with
  | refl => exact absurd rfl differs
  | up _ up' rest =>
    obtain rfl := Option.some.inj (up.symm.trans up')
    exact rest

/-- Tables that differ at one position only: a chain is kept, or goes through that position. -/
theorem OnChain.switch (same : ∀ j, j ≠ i → parent t' j = parent t j) (chain : OnChain t j c) :
    OnChain t' j c ∨ (OnChain t' j i ∧ OnChain t i c) := by
  induction chain with
  | refl => exact .inl (.refl _)
  | @up j p c notRoot up rest ih =>
    by_cases here : j = i
    · subst here
      exact .inr ⟨.refl j, .up notRoot up rest⟩
    · have kept : parent t' j = some p := (same j here).trans up
      rcases ih with whole | ⟨reaches, above⟩
      · exact .inl (.up notRoot kept whole)
      · exact .inr ⟨.up notRoot kept reaches, above⟩

/-! ### Meeting points -/

/-- Where the chains of two positions come together. -/
structure Meets (t : Table) (a b m : Nat) : Prop where
  left : OnChain t a m
  right : OnChain t b m
  last : ∀ c, OnChain t a c → OnChain t b c → OnChain t m c

theorem Meets.symm (meets : Meets t i j c) : Meets t j i c :=
  ⟨meets.right, meets.left, fun d first second => meets.last d second first⟩

/-- The way from the later position goes up first. -/
theorem Meets.up (falling : Falling t) (later : j < i) (up : parent t i = some p)
    (meets : Meets t p j c) : Meets t i j c where
  left := .up (by omega) up meets.left
  right := meets.right
  last d first second := by
    have low := second.le falling
    exact meets.last d (first.of_ne (by omega) up) second

theorem walk_meets (falling : Falling t) (fuel : Nat) (enough : i + j < fuel)
    (first : (parent t i).isSome = true) (second : (parent t j).isSome = true) :
    ∃ m, walk t fuel i j = some m ∧ Meets t i j m := by
  induction fuel generalizing i j with
  | zero => omega
  | succ fuel ih =>
    rw [walk]
    split
    next same =>
      subst same
      exact ⟨i, rfl, .refl i, .refl i, fun _ chain _ => chain⟩
    next differs =>
      split
      next later =>
        obtain ⟨p, up⟩ := Option.isSome_iff_exists.mp first
        obtain ⟨lower, defined⟩ := falling.lower i p (by omega) up
        obtain ⟨m, walked, meets⟩ := ih (by omega) defined second
        exact ⟨m, by rw [up]; exact walked, meets.up falling later up⟩
      next earlier =>
        obtain ⟨p, up⟩ := Option.isSome_iff_exists.mp second
        obtain ⟨lower, defined⟩ := falling.lower j p (by omega) up
        obtain ⟨m, walked, meets⟩ := ih (by omega) first defined
        exact ⟨m, by rw [up]; exact walked, (meets.symm.up falling (by omega) up).symm⟩

theorem meet_all (falling : Falling t) (more : List Nat) (first : (parent t s).isSome = true)
    (others : ∀ q ∈ more, (parent t q).isSome = true) :
    ∃ m, more.foldlM (meet t) s = some m ∧ (∀ q ∈ s :: more, OnChain t q m) ∧
      ∀ c, (∀ q ∈ s :: more, OnChain t q c) → OnChain t m c := by
  induction more generalizing s with
  | nil => exact ⟨s, rfl, by simpa using OnChain.refl s, by simp⟩
  | cons q more ih =>
    obtain ⟨m, met, meets⟩ := walk_meets falling (s + q + 1) (Nat.lt_succ_self _) first
      (others q List.mem_cons_self)
    have defined := meets.left.isSome falling first
    obtain ⟨n, folded, below, last⟩ :=
      ih defined fun x member => others x (List.mem_cons_of_mem q member)
    refine ⟨n, ?_, ?_, ?_⟩
    · rw [List.foldlM_cons, meet, met]
      exact folded
    · have under : OnChain t m n := below m List.mem_cons_self
      intro x member
      rcases List.mem_cons.mp member with rfl | later
      · exact meets.left.trans under
      · rcases List.mem_cons.mp later with rfl | further
        · exact meets.right.trans under
        · exact below x (List.mem_cons_of_mem m further)
    · intro c common
      refine last c fun x member => ?_
      rcases List.mem_cons.mp member with rfl | later
      · exact meets.last c (common s List.mem_cons_self)
          (common q (List.mem_cons_of_mem s List.mem_cons_self))
      · exact common x (List.mem_cons_of_mem s (List.mem_cons_of_mem q later))

end ProgramDependence.PostDominance
