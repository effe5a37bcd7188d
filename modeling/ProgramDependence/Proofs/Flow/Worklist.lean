import Mathlib.Logic.Function.Iterate
import ProgramDependence.Flow.Worklist
import ProgramDependence.Proofs.Ascending

/-! A worklist empties, and what it leaves is exact. A node that is not waiting has gathered all that
its sources hold by now: whatever changes there puts it back into the queue. So an empty queue leaves
sets that no visit would change, and nothing is ever held that did not come from somewhere. -/
namespace ProgramDependence.Spread

variable {p : Spread} {s : State} {i j k x : Nat} {rest : List Nat}

/-- Sources and sinks are two views of the same edges, and every node has one first visit. -/
structure Regular (p : Spread) : Prop where
  order : p.order.Perm (List.range p.size)
  sinks : ∀ i j, i ∈ p.sinks j ↔ j ∈ p.sources i
  inside : ∀ i, ∀ j ∈ p.sources i, i < p.size ∧ j < p.size

/-- The numbers that a node has for its sinks: its own, and what it lets through from a source. -/
inductive Holds (p : Spread) (x : Nat) : Nat → Prop where
  | own {i : Nat} : x ∈ p.own i → Holds p x i
  | pass {i j : Nat} : j ∈ p.sources i → Holds p x j → p.passes i x = true → Holds p x i

/-! ### Visits -/

theorem mem_gather : x ∈ p.gather s i ↔ ∃ j ∈ p.sources i, x ∈ s.heldAt j := by
  simp [gather]

theorem gather_ascending (p : Spread) (s : State) (i : Nat) : (p.gather s i).Pairwise (· < ·) :=
  Ascending.ofList_ascending _

theorem mem_transfer {gathered : List Nat} :
    x ∈ p.transfer i gathered ↔ x ∈ p.own i ∨ (x ∈ gathered ∧ p.passes i x = true) := by
  simp [transfer]

theorem transfer_ascending {gathered : List Nat} (ordered : gathered.Pairwise (· < ·)) (i : Nat) :
    (p.transfer i gathered).Pairwise (· < ·) :=
  Ascending.foldr_insert_ascending _ _ (ordered.filter _)

theorem enqueue_cons (queue : List Nat) (i : Nat) (nodes : List Nat) : enqueue queue (i :: nodes) =
    enqueue (if queue.contains i then queue else queue ++ [i]) nodes :=
  rfl

theorem mem_enqueue (queue nodes : List Nat) : k ∈ enqueue queue nodes ↔ k ∈ queue ∨ k ∈ nodes := by
  induction nodes generalizing queue with
  | nil => simp [enqueue]
  | cons i nodes ih =>
    rw [enqueue_cons, ih, List.mem_cons, ← or_assoc]
    refine or_congr_left ?_
    split
    next waiting =>
      have there : i ∈ queue := List.contains_iff_mem.mp waiting
      exact ⟨.inl, fun known => known.elim id fun same => same ▸ there⟩
    next => rw [List.mem_append, List.mem_singleton]

theorem enqueue_nodup (queue nodes : List Nat) (once : queue.Nodup) :
    (enqueue queue nodes).Nodup := by
  induction nodes generalizing queue with
  | nil => exact once
  | cons i nodes ih =>
    rw [enqueue_cons]
    apply ih
    split
    · exact once
    next absent =>
      apply List.nodup_append.mpr
      refine ⟨once, List.nodup_singleton i, ?_⟩
      rintro a member b last rfl
      obtain rfl := List.mem_singleton.mp last
      exact absent (List.contains_iff_mem.mpr member)

theorem step_of_same (next : s.queue = i :: rest)
    (same : p.transfer i (p.gather s i) = s.heldAt i) :
    s.step p = ⟨rest, s.gathered.set i (p.gather s i), s.held⟩ := by
  simp only [State.step, next, same, if_true]

/-- The state after a visit that changed what node `i` holds. -/
def State.afterChange (p : Spread) (s : State) (i : Nat) (rest : List Nat) : State :=
  ⟨enqueue rest (p.sinks i), s.gathered.set i (p.gather s i),
    s.held.set i (p.transfer i (p.gather s i))⟩

theorem step_of_changed (next : s.queue = i :: rest)
    (changed : p.transfer i (p.gather s i) ≠ s.heldAt i) :
    s.step p = s.afterChange p i rest := by
  simp only [State.step, next, if_neg changed, State.afterChange]

theorem getD_set_here {sets : List (List Nat)} (bound : i < sets.length) (set : List Nat) :
    (sets.set i set).getD i [] = set := by
  simp [List.getD_eq_getElem?_getD, bound]

theorem getD_set_other {sets : List (List Nat)} (other : k ≠ i) (set : List Nat) :
    (sets.set i set).getD k [] = sets.getD k [] := by
  simp only [List.getD_eq_getElem?_getD, List.getElem?_set_ne other.symm]

/-! ### What every visit keeps -/

structure Valid (p : Spread) (s : State) : Prop where
  once : s.queue.Nodup
  waiting : ∀ i ∈ s.queue, i < p.size
  gathered_length : s.gathered.length = p.size
  held_length : s.held.length = p.size
  ascending : ∀ i, (s.heldAt i).Pairwise (· < ·)
  sound : ∀ i, ∀ x ∈ s.heldAt i, p.Holds x i
  /-- Another visit would take nothing away. -/
  kept : ∀ i, s.heldAt i ⊆ p.transfer i (p.gather s i)
  /-- Another visit would change nothing. -/
  settled : ∀ i < p.size, i ∉ s.queue →
    s.gatheredAt i = p.gather s i ∧ s.heldAt i = p.transfer i (p.gather s i)

theorem valid_start (regular : Regular p) : Valid p p.start := by
  have nothing (i : Nat) : p.start.heldAt i = [] := by
    simp only [State.heldAt, start, List.getD_eq_getElem?_getD, List.getElem?_replicate]
    split <;> rfl
  constructor
  case once => exact regular.order.nodup_iff.mpr List.nodup_range
  case waiting =>
    intro i member
    exact List.mem_range.mp (regular.order.mem_iff.mp member)
  case gathered_length => exact List.length_replicate
  case held_length => exact List.length_replicate
  case ascending =>
    intro i
    rw [nothing]
    exact .nil
  case sound =>
    intro i x member
    rw [nothing] at member
    cases member
  case kept =>
    intro i
    rw [nothing]
    exact List.nil_subset _
  case settled =>
    intro i bound absent
    exact absurd (regular.order.mem_iff.mpr (List.mem_range.mpr bound)) absent

theorem Valid.transfer_sound (valid : Valid p s) (member : x ∈ p.transfer i (p.gather s i)) :
    p.Holds x i := by
  rcases mem_transfer.mp member with own | ⟨gathered, passes⟩
  · exact .own own
  · obtain ⟨j, source, held⟩ := mem_gather.mp gathered
    exact .pass source (valid.sound j x held) passes

theorem transfer_mono {s' : State} (grows : ∀ j, s.heldAt j ⊆ s'.heldAt j) (i : Nat) :
    p.transfer i (p.gather s i) ⊆ p.transfer i (p.gather s' i) := by
  intro x member
  rcases mem_transfer.mp member with own | ⟨gathered, passes⟩
  · exact mem_transfer.mpr (.inl own)
  · obtain ⟨j, source, held⟩ := mem_gather.mp gathered
    exact mem_transfer.mpr (.inr ⟨mem_gather.mpr ⟨j, source, grows j held⟩, passes⟩)

theorem gather_congr {s' : State} (same : ∀ j ∈ p.sources i, s'.heldAt j = s.heldAt j) :
    p.gather s' i = p.gather s i := by
  have sources : (p.sources i).flatMap s'.heldAt = (p.sources i).flatMap s.heldAt := by
    rw [List.flatMap, List.flatMap, List.map_congr_left same]
  rw [gather, gather, sources]

theorem valid_of_same (valid : Valid p s) (next : s.queue = i :: rest)
    (same : p.transfer i (p.gather s i) = s.heldAt i) :
    Valid p ⟨rest, s.gathered.set i (p.gather s i), s.held⟩ := by
  have once := valid.once
  rw [next] at once
  have bound : i < p.size := valid.waiting i (by simp [next])
  constructor
  case once => exact (List.nodup_cons.mp once).2
  case waiting =>
    intro k member
    exact valid.waiting k (by simp [next, member])
  case gathered_length => rw [List.length_set, valid.gathered_length]
  case held_length => exact valid.held_length
  case ascending => exact valid.ascending
  case sound => exact valid.sound
  case kept => exact valid.kept
  case settled =>
    intro k small absent
    by_cases visited : k = i
    · subst visited
      refine ⟨?_, same.symm⟩
      exact getD_set_here (by rwa [valid.gathered_length]) _
    · obtain ⟨gathered, held⟩ := valid.settled k small (by simp [next, visited, absent])
      exact ⟨(getD_set_other visited _).trans gathered, held⟩

theorem afterChange_here (valid : Valid p s) (bound : i < p.size) (rest : List Nat) :
    (s.afterChange p i rest).heldAt i = p.transfer i (p.gather s i) :=
  getD_set_here (by rwa [valid.held_length]) _

theorem afterChange_other (differs : k ≠ i) : (s.afterChange p i rest).heldAt k = s.heldAt k :=
  getD_set_other differs _

theorem afterChange_grows (valid : Valid p s) (bound : i < p.size) (k : Nat) :
    s.heldAt k ⊆ (s.afterChange p i rest).heldAt k := by
  by_cases visited : k = i
  · rw [visited, afterChange_here valid bound rest]
    exact valid.kept i
  · rw [afterChange_other visited]
    exact fun _ => id

/-- Only sinks of the node can gather anything new. -/
theorem afterChange_gather (regular : Regular p) (notSink : k ∉ p.sinks i) :
    p.gather (s.afterChange p i rest) k = p.gather s k := by
  apply gather_congr
  intro j source
  apply afterChange_other
  rintro rfl
  exact notSink ((regular.sinks k j).mpr source)

theorem valid_of_changed (regular : Regular p) (valid : Valid p s) (next : s.queue = i :: rest) :
    Valid p (s.afterChange p i rest) := by
  have once := valid.once
  rw [next] at once
  have bound : i < p.size := valid.waiting i (by simp [next])
  have here := afterChange_here valid bound rest
  constructor
  case once => exact enqueue_nodup _ _ (List.nodup_cons.mp once).2
  case waiting =>
    intro k member
    rcases (mem_enqueue _ _).mp member with old | sink
    · exact valid.waiting k (by simp [next, old])
    · exact (regular.inside k i ((regular.sinks k i).mp sink)).1
  case gathered_length => exact List.length_set.trans valid.gathered_length
  case held_length => exact List.length_set.trans valid.held_length
  case ascending =>
    intro k
    by_cases visited : k = i
    · rw [visited, here]
      exact transfer_ascending (gather_ascending p s i) i
    · rw [afterChange_other visited]
      exact valid.ascending k
  case sound =>
    intro k x member
    by_cases visited : k = i
    · rw [visited, here] at member
      exact visited ▸ valid.transfer_sound member
    · rw [afterChange_other visited] at member
      exact valid.sound k x member
  case kept =>
    intro k x member
    apply transfer_mono (afterChange_grows valid bound) k
    by_cases visited : k = i
    · rw [visited, here] at member
      exact visited ▸ member
    · rw [afterChange_other visited] at member
      exact valid.kept k member
  case settled =>
    intro k small absent
    obtain ⟨notWaiting, notSink⟩ := not_or.mp (mt (mem_enqueue _ _).mpr absent)
    rw [afterChange_gather regular notSink]
    by_cases visited : k = i
    · subst visited
      exact ⟨getD_set_here (by rwa [valid.gathered_length]) _, here⟩
    · obtain ⟨gathered, held⟩ := valid.settled k small (by simp [next, visited, notWaiting])
      exact ⟨(getD_set_other visited _).trans gathered, (afterChange_other visited).trans held⟩

theorem valid_step (regular : Regular p) (valid : Valid p s) : Valid p (s.step p) := by
  cases next : s.queue with
  | nil =>
    simp only [State.step, next]
    exact valid
  | cons i rest =>
    by_cases same : p.transfer i (p.gather s i) = s.heldAt i
    · rw [step_of_same next same]
      exact valid_of_same valid next same
    · rw [step_of_changed next same]
      exact valid_of_changed regular valid next

/-! ### The budget -/

/-- All numbers that there are to hold. -/
def numbers (p : Spread) : List Nat := (List.range p.size).flatMap p.own

/-- The visits that are left at most. -/
def State.work (p : Spread) (s : State) : Nat :=
  s.queue.length + p.size * (p.size * p.numbers.length - s.held.flatten.length)

theorem Holds.mem_numbers (regular : Regular p) (holds : p.Holds x i) (bound : i < p.size) :
    x ∈ p.numbers := by
  induction holds with
  | own own => exact List.mem_flatMap.mpr ⟨_, List.mem_range.mpr bound, own⟩
  | pass source _ _ ih => exact ih (regular.inside _ _ source).2

theorem Valid.heldAt_length (regular : Regular p) (valid : Valid p s) (bound : i < p.size) :
    (s.heldAt i).length ≤ p.numbers.length := by
  apply List.Subperm.length_le
  apply List.subperm_of_subset (valid.ascending i).nodup
  intro x member
  exact (valid.sound i x member).mem_numbers regular bound

theorem flatten_length_le {sets : List (List Nat)} {n : Nat} (small : ∀ set ∈ sets, set.length ≤ n) :
    sets.flatten.length ≤ sets.length * n := by
  induction sets with
  | nil => simp
  | cons set sets ih =>
    have first := small set List.mem_cons_self
    have others := ih fun set member => small set (List.mem_cons_of_mem _ member)
    rw [List.flatten_cons, List.length_append, List.length_cons, Nat.succ_mul]
    omega

theorem Valid.total_le (regular : Regular p) (valid : Valid p s) :
    s.held.flatten.length ≤ p.size * p.numbers.length := by
  rw [← valid.held_length]
  apply flatten_length_le
  intro set member
  obtain ⟨i, bound, rfl⟩ := List.mem_iff_getElem.mp member
  have small := valid.heldAt_length regular (valid.held_length ▸ bound)
  rwa [State.heldAt, List.getD_eq_getElem?_getD, List.getElem?_eq_getElem bound, Option.getD_some]
    at small

theorem flatten_length_set {sets : List (List Nat)} (bound : i < sets.length) (set : List Nat) :
    (sets.set i set).flatten.length + (sets.getD i []).length = sets.flatten.length + set.length := by
  induction sets generalizing i with
  | nil => simp at bound
  | cons first sets ih =>
    cases i with
    | zero =>
      simp only [List.set_cons_zero, List.flatten_cons, List.length_append, List.getD_cons_zero]
      omega
    | succ i =>
      have later := ih (i := i) (by simpa using bound)
      simp only [List.set_cons_succ, List.flatten_cons, List.length_append, List.getD_cons_succ]
      omega

/-- A visit that changes what a node holds makes it hold more. -/
theorem Valid.grows (valid : Valid p s) (changed : p.transfer i (p.gather s i) ≠ s.heldAt i) :
    (s.heldAt i).length < (p.transfer i (p.gather s i)).length := by
  have part := List.subperm_of_subset (valid.ascending i).nodup (valid.kept i)
  by_contra notMore
  have same := part.perm_of_length_le (Nat.le_of_not_lt notMore)
  apply changed
  apply (transfer_ascending (gather_ascending p s i) i).eq_of_mem_iff (valid.ascending i)
  intro x
  exact same.symm.mem_iff

theorem total_afterChange (valid : Valid p s) (bound : i < p.size)
    (changed : p.transfer i (p.gather s i) ≠ s.heldAt i) (rest : List Nat) :
    s.held.flatten.length < (s.afterChange p i rest).held.flatten.length := by
  have total := flatten_length_set (valid.held_length ▸ bound) (p.transfer i (p.gather s i))
  have longer := valid.grows changed
  rw [State.heldAt] at longer
  simp only [State.afterChange]
  omega

theorem queue_length_le (valid : Valid p s) : s.queue.length ≤ p.size := by
  have part : s.queue ⊆ List.range p.size := fun i member => List.mem_range.mpr (valid.waiting i member)
  simpa using (List.subperm_of_subset valid.once part).length_le

/-- A visit either shortens the queue or leaves room for as many visits as there are nodes. -/
theorem work_step (regular : Regular p) (valid : Valid p s) (busy : s.queue ≠ []) :
    (s.step p).work p < s.work p := by
  obtain ⟨i, rest, next⟩ := List.exists_cons_of_ne_nil busy
  by_cases same : p.transfer i (p.gather s i) = s.heldAt i
  · rw [step_of_same next same]
    simp only [State.work, next, List.length_cons]
    omega
  · have after := valid_of_changed regular valid next
    have more := total_afterChange valid (valid.waiting i (by simp [next])) same rest
    have room := after.total_le regular
    have short := queue_length_le after
    -- One less to hold for all nodes together is worth a queue of all nodes.
    have worth : p.size * (p.size * p.numbers.length -
          (s.afterChange p i rest).held.flatten.length) + p.size ≤
        p.size * (p.size * p.numbers.length - s.held.flatten.length) := by
      rw [← Nat.mul_succ]
      apply Nat.mul_le_mul_left
      omega
    rw [step_of_changed next same, State.work, State.work, next, List.length_cons]
    omega

theorem run_valid (regular : Regular p) (fuel : Nat) (valid : Valid p s)
    (enough : s.work p ≤ fuel) :
    Valid p (State.run p fuel s) ∧ (State.run p fuel s).queue = [] := by
  induction fuel generalizing s with
  | zero =>
    refine ⟨valid, List.length_eq_zero_iff.mp ?_⟩
    rw [State.work] at enough
    change s.queue.length = 0
    omega
  | succ fuel ih =>
    rw [State.run]
    split
    next empty => exact ⟨valid, List.isEmpty_iff.mp empty⟩
    next busy =>
      have less := work_step regular valid (by simpa using busy)
      exact ih (valid_step regular valid) (by omega)

theorem work_start (regular : Regular p) : p.start.work p ≤ p.budget := by
  have length := regular.order.length_eq
  rw [List.length_range] at length
  rw [State.work, budget, start, length]
  exact Nat.add_le_add_left (Nat.mul_le_mul_left _ (Nat.sub_le _ _)) _

theorem settle_valid (regular : Regular p) : Valid p p.settle ∧ p.settle.queue = [] :=
  run_valid regular _ (valid_start regular) (work_start regular)

/-! ### What is left -/

theorem run_eq_iterate (fuel : Nat) (s : State) : State.run p fuel s = (State.step p)^[fuel] s := by
  induction fuel generalizing s with
  | zero => rfl
  | succ fuel ih =>
    rw [State.run]
    split
    next empty =>
      have still : s.step p = s := by
        simp only [State.step, List.isEmpty_iff.mp empty]
      exact (Function.iterate_fixed still _).symm
    next => rw [ih, Function.iterate_succ_apply]

/-- Visit after visit the queue empties, and these sets have been gathered by then. -/
def EmptiesTo (p : Spread) (sets : List (List Nat)) : Prop :=
  ∃ visits, ((State.step p)^[visits] p.start).queue = [] ∧
    ((State.step p)^[visits] p.start).gathered = sets

theorem emptiesTo_settle (regular : Regular p) : p.EmptiesTo p.settle.gathered := by
  refine ⟨p.budget, ?_, ?_⟩
  all_goals rw [← run_eq_iterate]
  · exact (settle_valid regular).2
  · rfl

theorem settle_settled (regular : Regular p) (bound : i < p.size) :
    p.settle.gatheredAt i = p.gather p.settle i ∧
      p.settle.heldAt i = p.transfer i (p.gather p.settle i) := by
  obtain ⟨valid, empty⟩ := settle_valid regular
  exact valid.settled i bound (by simp [empty])

theorem mem_settle_heldAt (regular : Regular p) (bound : i < p.size) :
    x ∈ p.settle.heldAt i ↔ p.Holds x i := by
  refine ⟨(settle_valid regular).1.sound i x, fun holds => ?_⟩
  induction holds with
  | own own =>
    rw [(settle_settled regular bound).2]
    exact mem_transfer.mpr (.inl own)
  | pass source _ passes ih =>
    rw [(settle_settled regular bound).2]
    have held := ih (regular.inside _ _ source).2
    exact mem_transfer.mpr (.inr ⟨mem_gather.mpr ⟨_, source, held⟩, passes⟩)

theorem gatheredAt_of_le (regular : Regular p) (past : p.size ≤ i) : p.settle.gatheredAt i = [] := by
  rw [← (settle_valid regular).1.gathered_length] at past
  rw [State.gatheredAt, List.getD_eq_getElem?_getD, List.getElem?_eq_none past, Option.getD_none]

/-- In the end a node has gathered what its sources have for it. -/
theorem mem_settle_gatheredAt (regular : Regular p) :
    x ∈ p.settle.gatheredAt i ↔ ∃ j ∈ p.sources i, p.Holds x j := by
  by_cases bound : i < p.size
  · rw [(settle_settled regular bound).1, mem_gather]
    refine exists_congr fun j => and_congr_right fun source => ?_
    exact mem_settle_heldAt regular (regular.inside i j source).2
  · rw [gatheredAt_of_le regular (Nat.le_of_not_lt bound)]
    refine ⟨fun member => absurd member List.not_mem_nil, ?_⟩
    rintro ⟨j, source, _⟩
    exact absurd (regular.inside i j source).1 bound

theorem settle_gatheredAt_ascending (regular : Regular p) (i : Nat) :
    (p.settle.gatheredAt i).Pairwise (· < ·) := by
  by_cases bound : i < p.size
  · rw [(settle_settled regular bound).1]
    exact gather_ascending p p.settle i
  · rw [gatheredAt_of_le regular (Nat.le_of_not_lt bound)]
    exact .nil

end ProgramDependence.Spread
