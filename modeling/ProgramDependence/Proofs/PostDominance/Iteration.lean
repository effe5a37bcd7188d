import ProgramDependence.Proofs.PostDominance.Granularity

/-! The rounds themselves. In every turn of every round a way with a parent is at hand, and each walk up the
table reads entries that are there until its two positions meet. After at most as many rounds as there are
positions, and one more, a round leaves the table as it is. -/
namespace ProgramDependence

namespace PostDominance

variable {ways : List (List Nat)} {t u : Table} {a b i m n r fuel last : Nat}

/-- The table after a number of rounds. -/
def after (ways : List (List Nat)) : Nat → Option Table
  | 0 => some (start ways.length)
  | n + 1 => (after ways n).bind (round ways)

/-- The table that position `i` finds at its turn in round `n`. -/
def before (ways : List (List Nat)) (n i : Nat) : Option Table :=
  (after ways n).bind fun t => (List.range' 1 (i - 1)).foldlM (turn ways) t

/-- A walk up the table from two positions to where they meet. Every entry it reads holds a parent. -/
inductive Walks (t : Table) : Nat → Nat → Nat → Prop where
  | met (a : Nat) : Walks t a a a
  | first {a b p m : Nat} : b < a → t[a]? = some (some p) → Walks t p b m → Walks t a b m
  | second {a b p m : Nat} : a < b → t[b]? = some (some p) → Walks t a p m → Walks t a b m

/-- A turn that goes through: the ways are positions of the table, one of them has a parent, and those that
have one are walked up from without end or gap, each together with where the ones before it met. -/
structure GoesThrough (ways : List (List Nat)) (t : Table) (i : Nat) : Prop where
  inside : ∀ s ∈ ways.getD i [], s < t.length
  processed : ∃ s ∈ ways.getD i [], (parent t s).isSome = true
  walks : ∀ s done q later,
    ((ways.getD i []).filter fun s => (parent t s).isSome) = s :: (done ++ q :: later) →
      ∃ a m, done.foldlM (meet t) s = some a ∧ Walks t a q m ∧ meet t a q = some m

/-- Round `n` is the first to leave the table as it is, and that table is `t`. -/
structure ReachesFixpoint (ways : List (List Nat)) (n : Nat) (t : Table) : Prop where
  soon : n ≤ ways.length + 1
  reached : after ways n = some t
  fixed : round ways t = some t
  changed : ∀ m < n, after ways (m + 1) ≠ after ways m
  turns : ∀ m ≤ n, ∀ i < ways.length, i ≠ 0 → ∃ u, before ways m i = some u ∧ GoesThrough ways u i
  length : t.length = ways.length
  entries : ∀ i < t.length, ∃ p, t[i]? = some (some p) ∧ (i ≠ 0 → p < i)

theorem getElem?_of_parent (up : parent t i = some a) : t[i]? = some (some a) := by
  rw [parent, List.getD_eq_getElem?_getD] at up
  cases entry : t[i]? with
  | none => simp [entry] at up
  | some value => simpa [entry] using up

theorem walks_of_walk (walked : walk t fuel a b = some m) : Walks t a b m := by
  induction fuel generalizing a b with
  | zero => cases walked
  | succ fuel ih =>
    rw [walk] at walked
    split at walked
    next same =>
      obtain rfl := Option.some.inj walked
      rw [same]
      exact .met _
    next differs =>
      split at walked
      next later =>
        obtain ⟨p, up, rest⟩ := Option.bind_eq_some_iff.mp walked
        exact .first later (getElem?_of_parent up) (ih rest)
      next earlier =>
        obtain ⟨p, up, rest⟩ := Option.bind_eq_some_iff.mp walked
        exact .second (by omega) (getElem?_of_parent up) (ih rest)

/-! ### One turn -/

theorem Progress.goesThrough (progress : Progress ways r last t) (rooted : Rooted ways)
    (bound : last + 1 < ways.length) : GoesThrough ways t (last + 1) where
  inside s way := by
    rw [progress.length]
    exact rooted.bounded (last + 1) s way
  processed := by
    obtain ⟨s, way, earlier⟩ := rooted.down (last + 1) bound (Nat.succ_ne_zero last)
    exact ⟨s, way, progress.defined s (by omega) (by omega)⟩
  walks s done q later opened := by
    have known : ∀ x ∈ s :: (done ++ q :: later), (parent t x).isSome = true := by
      intro x member
      rw [← opened] at member
      exact (List.mem_filter.mp member).2
    have first := known s List.mem_cons_self
    obtain ⟨a, folded, below, _⟩ := meet_all progress.falling done first fun x member =>
      known x (List.mem_cons_of_mem s (List.mem_append_left _ member))
    have defined := (below s List.mem_cons_self).isSome progress.falling first
    obtain ⟨m, walked, _⟩ := walk_meets progress.falling (a + q + 1) (Nat.lt_succ_self _) defined
      (known q (by simp))
    exact ⟨a, m, folded, walks_of_walk walked, walked⟩

/-! ### All rounds -/

theorem after_progress (rooted : Rooted ways) (n : Nat) :
    ∃ t, after ways n = some t ∧ Progress ways n 0 t := by
  induction n with
  | zero => exact ⟨_, rfl, start_progress rooted⟩
  | succ n ih =>
    obtain ⟨t, reached, progress⟩ := ih
    obtain ⟨t', went, more, _⟩ := round_progress rooted progress
    refine ⟨t', ?_, more⟩
    rw [after, reached]
    exact went

theorem before_goesThrough (rooted : Rooted ways) (n : Nat) (bound : i < ways.length)
    (notRoot : i ≠ 0) : ∃ u, before ways n i = some u ∧ GoesThrough ways u i := by
  obtain ⟨t, reached, progress⟩ := after_progress rooted n
  obtain ⟨u, turned, partway⟩ := turns_progress rooted (i - 1) progress (by omega)
  have here : 0 + (i - 1) + 1 = i := by omega
  have through := partway.goesThrough rooted (by omega)
  rw [here] at through
  refine ⟨u, ?_, through⟩
  rw [before, reached]
  exact turned

/-- What `settle` returns is the table of the first round that changes nothing. -/
theorem after_of_settle (reached : after ways n = some t) (settled : settle ways fuel t = some u) :
    ∃ m, m < n + fuel ∧ after ways m = some u ∧ round ways u = some u ∧
      ∀ k, n ≤ k → k < m → after ways (k + 1) ≠ after ways k := by
  induction fuel generalizing n t with
  | zero => cases settled
  | succ fuel ih =>
    rw [settle] at settled
    cases went : round ways t with
    | none => simp [went] at settled
    | some next =>
      simp only [went] at settled
      have step : after ways (n + 1) = some next := by
        rw [after, reached]
        exact went
      split at settled
      next same =>
        obtain rfl := Option.some.inj settled
        rw [same] at went
        exact ⟨n, by omega, reached, went, fun k low high => by omega⟩
      next differs =>
        obtain ⟨m, soon, found, rest, changed⟩ := ih step settled
        refine ⟨m, by omega, found, rest, fun k low high => ?_⟩
        by_cases now : k = n
        · subst now
          rw [step, reached]
          exact fun same => differs (Option.some.inj same)
        · exact changed k (by omega) high

/-- More rounds than needed make no difference. -/
theorem settle_add (extra : Nat) (settled : settle ways fuel t = some u) :
    settle ways (fuel + extra) t = some u := by
  induction fuel generalizing t with
  | zero => cases settled
  | succ fuel ih =>
    rw [settle] at settled
    rw [Nat.add_right_comm, settle]
    cases went : round ways t with
    | none => simp [went] at settled
    | some next =>
      simp only [went] at settled ⊢
      split
      next same => rwa [if_pos same] at settled
      next differs =>
        rw [if_neg differs] at settled
        exact ih settled

theorem Settled.entries (settled : Settled ways t) (bound : i < t.length) :
    ∃ p, t[i]? = some (some p) ∧ (i ≠ 0 → p < i) := by
  rw [settled.length] at bound
  obtain ⟨p, up⟩ := Option.isSome_iff_exists.mp (settled.defined i bound)
  exact ⟨p, getElem?_of_parent up, fun notRoot => (settled.falling.lower i p notRoot up).1⟩

theorem reaches_fixpoint (rooted : Rooted ways) :
    ∃ n t, ReachesFixpoint ways n t ∧ settle ways (ways.length + 2) (start ways.length) = some t := by
  obtain ⟨t, settle, settled⟩ := settle_settled rooted (ways.length + 2) (start_progress rooted)
    (Nat.le_refl _) (Nat.succ_pos _)
  obtain ⟨n, soon, reached, fixed, changed⟩ := after_of_settle (n := 0) rfl settle
  refine ⟨n, t, ?_, settle⟩
  exact {
    soon := by omega
    reached := reached
    fixed := fixed
    changed := fun m early => changed m (Nat.zero_le m) early
    turns := fun m _ i bound notRoot => before_goesThrough rooted m bound notRoot
    length := settled.length
    entries := fun i bound => settled.entries bound }

/-- An exit has a place in the order, and the rounds allowed are more than those needed. -/
theorem compute_of_settle {g : Digraph} (closed : g.Closed) (exit : ∃ k < g.size, g.succs k = [])
    (settled : settle (waysIn g (orderOf g)) ((waysIn g (orderOf g)).length + 2)
      (start (waysIn g (orderOf g)).length) = some t) :
    compute g = .ok ⟨g.size, orderOf g, (List.range g.size).map (above (orderOf g) t g.size)⟩ := by
  obtain ⟨k, bound, none⟩ := exit
  have free : ¬g.Stuck k := Digraph.not_stuck.mpr ⟨[k], .exit bound none⟩
  have placed : k ∈ orderOf g := (mem_orderOf closed bound).mpr free
  have some_way :
      ¬(0 < g.size && (List.range g.size).all fun i => !(orderOf g).contains i) = true := by
    simp only [Bool.and_eq_true, List.all_eq_true, List.mem_range, not_and]
    intro _ all
    simpa [placed] using all k bound
  have length : (waysIn g (orderOf g)).length = (orderOf g).length := by simp [waysIn]
  have allowed : (orderOf g).length + 2 +
      ((orderOf g).length * (orderOf g).length - (orderOf g).length) = rounds (orderOf g).length := by
    have := Nat.le_mul_self (orderOf g).length
    rw [rounds]
    omega
  have enough := settle_add ((orderOf g).length * (orderOf g).length - (orderOf g).length) settled
  rw [length, allowed] at enough
  simp only [compute, if_neg some_way, enough]

end PostDominance

/-- Where some block is an exit, the parents of the blocks reach a fixpoint, no turn on the way fails, and
the post-dominators are read off it. -/
theorem block_parents_reach_fixpoint (b : Body) (policy : Policy) {flow : Digraph}
    (ok : b.flow? = .ok flow) :
    let g := (Partition.compute policy b.stmts flow).graph
    let order := PostDominance.orderOf g
    (∃ k < g.size, g.succs k = []) →
      ∃ n t, PostDominance.ReachesFixpoint (PostDominance.waysIn g order) n t ∧
        PostDominance.compute g =
          .ok ⟨g.size, order, (List.range g.size).map (PostDominance.above order t g.size)⟩ := by
  intro g order exit
  have closed : g.Closed := (Body.isBasic ok policy).graph_closed
  obtain ⟨n, t, fixpoint, settled⟩ := PostDominance.reaches_fixpoint (PostDominance.waysIn_rooted g)
  exact ⟨n, t, fixpoint, PostDominance.compute_of_settle closed exit settled⟩

/-- A loop with a return at each of its two branches. -/
def twoReturns : Body where
  locals := [⟨"n", "int"⟩]
  code := [
    ⟨.branch (.localVar "n") 2, .zero⟩,
    ⟨.ret none, .zero⟩,
    ⟨.branch (.localVar "n") 0, .zero⟩,
    ⟨.ret none, .zero⟩]

def twoReturnsFlow : Digraph := ⟨[[1, 2], [], [0, 3], []]⟩

/-- In the first round only one way from the head of the loop has a parent, so a second one is needed. -/
theorem twoReturns_parents_reach_fixpoint : twoReturns.flow? = .ok twoReturnsFlow ∧
    let g := (Partition.compute .expanded twoReturns.stmts twoReturnsFlow).graph
    let order := PostDominance.orderOf g
    let ways := PostDominance.waysIn g order
    g.succs 1 = [] ∧
      PostDominance.after ways 1 = some [some 0, some 0, some 0, some 2, some 0] ∧
      PostDominance.after ways 2 = some [some 0, some 0, some 0, some 0, some 0] ∧
      ∃ n t, PostDominance.ReachesFixpoint ways n t ∧ PostDominance.compute g =
        .ok ⟨g.size, order, (List.range g.size).map (PostDominance.above order t g.size)⟩ := by
  have ok : twoReturns.flow? = .ok twoReturnsFlow := by rfl
  refine ⟨ok, rfl, by rfl, by rfl, ?_⟩
  exact block_parents_reach_fixpoint twoReturns .expanded ok ⟨1, by decide, rfl⟩

end ProgramDependence
