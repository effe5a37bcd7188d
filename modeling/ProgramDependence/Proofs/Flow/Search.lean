import Mathlib.Logic.Relation
import ProgramDependence.Flow.Search

/-! Depth-first search finds exactly what can be reached. The nodes under way, outermost first,
followed by those that are done make up one line. Finishing a node does not change that line, and
a new node is put in behind the one that led to it, so the line is a reverse postorder at all
times. -/
namespace ProgramDependence.Search

variable {size n : Nat} {roots : List Nat} {next : Nat → List Nat} {s : State}

/-- Edges stay among the numbered nodes. -/
structure Inside (size : Nat) (roots : List Nat) (next : Nat → List Nat) : Prop where
  roots : ∀ r ∈ roots, r < size
  next : ∀ n < size, ∀ m ∈ next n, m < size

/-- The successors of a node or of the root. -/
def around (size : Nat) (roots : List Nat) (next : Nat → List Nat) (n : Nat) : List Nat :=
  if n = size then roots else next n

def State.line (s : State) : List Nat := (s.stack.map (·.1)).reverse ++ s.done

theorem State.seen_iff (s : State) (n : Nat) : s.seen n = true ↔ n ∈ s.line := by
  simp only [seen, line, Bool.or_eq_true, List.contains_iff_mem, List.any_eq_true, decide_eq_true_eq,
    List.mem_append, List.mem_reverse, List.mem_map]
  exact or_comm

/-- Every node of the line but the first was met through an earlier one. -/
def Met (around : Nat → List Nat) (line : List Nat) : Prop :=
  ∀ before n after, line = before ++ n :: after → before ≠ [] → ∃ p ∈ before, n ∈ around p

theorem Met.insert {around : Nat → List Nat} {early late : List Nat} (met : Met around (early ++ late))
    (parent : p ∈ early) (edge : n ∈ around p) : Met around (early ++ n :: late) := by
  intro before m after split notFirst
  rcases List.append_eq_append_iff.mp split with ⟨more, rfl, rest⟩ | ⟨more, rfl, rest⟩
  · cases more with
    | nil =>
      obtain ⟨rfl, _⟩ := List.cons.inj rest
      exact ⟨p, by simpa using parent, edge⟩
    | cons a more =>
      obtain ⟨rfl, rfl⟩ := List.cons.inj rest
      have earlier : early ++ more ≠ [] := by
        intro empty
        rw [(List.append_eq_nil_iff.mp empty).1] at parent
        exact List.not_mem_nil parent
      obtain ⟨q, member, link⟩ := met (early ++ more) m after (by simp) earlier
      exact ⟨q, by rcases List.mem_append.mp member with h | h <;> simp [h], link⟩
  · cases more with
    | nil =>
      obtain ⟨rfl, _⟩ := List.cons.inj rest
      exact ⟨p, by simpa using parent, edge⟩
    | cons a more =>
      obtain ⟨rfl, rfl⟩ := List.cons.inj rest
      exact met before m (more ++ late) (by simp) notFirst

/-- What holds at every point of a search. -/
structure Valid (size : Nat) (roots : List Nat) (next : Nat → List Nat) (s : State) : Prop where
  first : ∃ rest, s.line = size :: rest
  distinct : s.line.Nodup
  bounded : ∀ n ∈ s.line, n ≤ size
  met : Met (around size roots next) s.line
  /-- The successors that are not still to look at have been seen. -/
  underWay : ∀ frame ∈ s.stack, ∃ seen, around size roots next frame.1 = seen ++ frame.2 ∧
    ∀ m ∈ seen, m ∈ s.line
  finished : ∀ n ∈ s.done, ∀ m ∈ around size roots next n, m ∈ s.line

theorem around_lt (inside : Inside size roots next) (bound : n ≤ size)
    (member : m ∈ around size roots next n) : m < size := by
  unfold around at member
  split at member
  · exact inside.roots m member
  · exact inside.next n (by omega) m member

theorem valid_start : Valid size roots next ⟨[(size, roots)], []⟩ where
  first := ⟨[], rfl⟩
  distinct := by simp [State.line]
  bounded := by simp [State.line]
  met := by
    intro before n after split notFirst
    have lengths := congrArg List.length split
    have positive : 0 < before.length := List.length_pos_iff.mpr notFirst
    simp [State.line] at lengths
    omega
  underWay := by
    intro frame member
    obtain rfl := List.mem_singleton.mp member
    exact ⟨[], by simp [around], by simp⟩
  finished := by simp

/-- The line does not change when a node is finished. -/
theorem valid_finish (valid : Valid size roots next ⟨(n, []) :: rest, done⟩) :
    Valid size roots next ⟨rest, n :: done⟩ := by
  have same : State.line ⟨rest, n :: done⟩ = State.line ⟨(n, []) :: rest, done⟩ := by
    simp [State.line]
  refine ⟨same ▸ valid.first, same ▸ valid.distinct, same ▸ valid.bounded, same ▸ valid.met, ?_, ?_⟩
  · intro frame member
    rw [same]
    exact valid.underWay frame (List.mem_cons_of_mem _ member)
  · intro k member
    rw [same]
    rcases List.mem_cons.mp member with rfl | old
    · obtain ⟨seen, all, there⟩ := valid.underWay (k, []) List.mem_cons_self
      simp only [List.append_nil] at all
      rw [all]
      exact there
    · exact valid.finished k old

/-- The next successor joins those that have been seen. -/
theorem looked_at {nodes line line' : List Nat}
    (before : ∃ seen, nodes = seen ++ m :: more ∧ ∀ k ∈ seen, k ∈ line)
    (grows : ∀ k ∈ line, k ∈ line') (there : m ∈ line') :
    ∃ seen, nodes = seen ++ more ∧ ∀ k ∈ seen, k ∈ line' := by
  obtain ⟨seen, all, known⟩ := before
  refine ⟨seen ++ [m], by simpa using all, ?_⟩
  intro k member
  rcases List.mem_append.mp member with earlier | last
  · exact grows k (known k earlier)
  · obtain rfl := List.mem_singleton.mp last
    exact there

theorem valid_skip (valid : Valid size roots next ⟨(n, m :: more) :: rest, done⟩)
    (old : m ∈ State.line ⟨(n, m :: more) :: rest, done⟩) :
    Valid size roots next ⟨(n, more) :: rest, done⟩ := by
  refine ⟨valid.first, valid.distinct, valid.bounded, valid.met, ?_, valid.finished⟩
  intro frame member
  rcases List.mem_cons.mp member with rfl | other
  · exact looked_at (valid.underWay (n, m :: more) List.mem_cons_self) (fun _ known => known) old
  · exact valid.underWay frame (List.mem_cons_of_mem _ other)

theorem Valid.edge (valid : Valid size roots next ⟨(n, m :: more) :: rest, done⟩) :
    m ∈ around size roots next n := by
  obtain ⟨seen, all, _⟩ := valid.underWay (n, m :: more) List.mem_cons_self
  rw [all]
  simp

theorem Valid.lt (inside : Inside size roots next)
    (valid : Valid size roots next ⟨(n, m :: more) :: rest, done⟩) : m < size :=
  around_lt inside (valid.bounded n (by simp [State.line])) valid.edge

/-- The nodes under way up to `n`, outermost first. -/
def outward (rest : List (Nat × List Nat)) (n : Nat) : List Nat := (rest.map (·.1)).reverse ++ [n]

theorem line_top (n : Nat) (more : List Nat) (rest : List (Nat × List Nat)) (done : List Nat) :
    State.line ⟨(n, more) :: rest, done⟩ = outward rest n ++ done := by
  simp [State.line, outward]

theorem line_push (m n : Nat) (next more : List Nat) (rest : List (Nat × List Nat))
    (done : List Nat) :
    State.line ⟨(m, next) :: (n, more) :: rest, done⟩ = outward rest n ++ m :: done := by
  simp [State.line, outward]

theorem valid_push (inside : Inside size roots next)
    (valid : Valid size roots next ⟨(n, m :: more) :: rest, done⟩)
    (new : m ∉ State.line ⟨(n, m :: more) :: rest, done⟩) :
    Valid size roots next ⟨(m, next m) :: (n, more) :: rest, done⟩ := by
  have mem_push (k : Nat) : k ∈ State.line ⟨(m, next m) :: (n, more) :: rest, done⟩ ↔
      k = m ∨ k ∈ State.line ⟨(n, m :: more) :: rest, done⟩ := by
    rw [line_push, line_top, List.mem_append, List.mem_cons, List.mem_append]
    exact or_left_comm
  have grows (k : Nat) (member : k ∈ State.line ⟨(n, m :: more) :: rest, done⟩) :
      k ∈ State.line ⟨(m, next m) :: (n, more) :: rest, done⟩ := (mem_push k).mpr (.inr member)
  have small := valid.lt inside
  refine ⟨?_, ?_, ?_, ?_, ?_, ?_⟩
  · obtain ⟨tail, first⟩ := valid.first
    rw [line_top] at first
    rw [line_push]
    cases outer : outward rest n with
    | nil => simp [outward] at outer
    | cons a inner =>
      rw [outer] at first
      exact ⟨inner ++ m :: done, by rw [List.cons_append, (List.cons.inj first).1]⟩
  · have distinct := valid.distinct
    rw [line_top] at distinct new
    rw [line_push]
    exact (List.perm_middle.nodup_iff).mpr (List.nodup_cons.mpr ⟨new, distinct⟩)
  · intro k member
    rcases (mem_push k).mp member with rfl | old
    · exact Nat.le_of_lt small
    · exact valid.bounded k old
  · have met := valid.met
    rw [line_top] at met
    rw [line_push]
    exact met.insert (p := n) (by simp [outward]) valid.edge
  · intro frame member
    rcases List.mem_cons.mp member with rfl | other
    · have notRoot : m ≠ size := by omega
      exact ⟨[], by simp [around, notRoot], by simp⟩
    · rcases List.mem_cons.mp other with rfl | deeper
      · exact looked_at (valid.underWay (n, m :: more) List.mem_cons_self) grows
          ((mem_push m).mpr (.inl rfl))
      · obtain ⟨seen, all, there⟩ := valid.underWay frame (List.mem_cons_of_mem _ deeper)
        exact ⟨seen, all, fun k known => grows k (there k known)⟩
  · intro k member j link
    exact grows j (valid.finished k member j link)

theorem valid_step (inside : Inside size roots next) (valid : Valid size roots next s) :
    Valid size roots next (s.step next) := by
  obtain ⟨stack, done⟩ := s
  rcases stack with _ | ⟨⟨n, _ | ⟨m, more⟩⟩, rest⟩
  · exact valid
  · exact valid_finish valid
  · simp only [State.step]
    split
    next old => exact valid_skip valid ((State.seen_iff _ m).mp old)
    next new => exact valid_push inside valid (mt (State.seen_iff _ m).mpr new)

/-! ### The budget -/

/-- Steps that a node takes from when it is put on the stack. -/
def cost (next : Nat → List Nat) (n : Nat) : Nat := (next n).length + 1

def totalCost (next : Nat → List Nat) (nodes : List Nat) : Nat :=
  nodes.foldr (fun n sum => cost next n + sum) 0

def unseenCost (size : Nat) (next : Nat → List Nat) (line : List Nat) : Nat :=
  totalCost next ((List.range size).filter fun n => !line.contains n)

def State.work (size : Nat) (next : Nat → List Nat) (s : State) : Nat :=
  s.stack.foldr (fun frame sum => frame.2.length + 1 + sum) 0 + unseenCost size next s.line

theorem totalCost_cons (next : Nat → List Nat) (n : Nat) (nodes : List Nat) :
    totalCost next (n :: nodes) = cost next n + totalCost next nodes :=
  rfl

theorem totalCost_remove (next : Nat → List Nat) (nodes early late : List Nat)
    (distinct : nodes.Nodup) (member : m ∈ nodes) (new : m ∉ early ++ late) :
    totalCost next (nodes.filter fun n => !(early ++ late).contains n) =
      cost next m + totalCost next (nodes.filter fun n => !(early ++ m :: late).contains n) := by
  induction nodes with
  | nil => cases member
  | cons a nodes ih =>
    obtain ⟨notLater, distinct⟩ := List.nodup_cons.mp distinct
    rcases List.mem_cons.mp member with rfl | later
    · have same : nodes.filter (fun n => !(early ++ late).contains n) =
          nodes.filter fun n => !(early ++ m :: late).contains n := by
        refine List.filter_congr fun n there => ?_
        have differs : n ≠ m := fun same => notLater (same ▸ there)
        simp [differs]
      rw [List.filter_cons_of_pos (by simpa using new), List.filter_cons_of_neg (by simp), ← same,
        totalCost_cons]
    · have differs : a ≠ m := fun same => notLater (same ▸ later)
      have shared : (early ++ late).contains a = (early ++ m :: late).contains a := by
        simp [differs]
      simp only [List.filter_cons, shared]
      split
      · rw [totalCost_cons, totalCost_cons, ih distinct later]
        omega
      · exact ih distinct later

theorem unseenCost_insert (next : Nat → List Nat) {early late : List Nat} (bound : m < size)
    (new : m ∉ early ++ late) :
    unseenCost size next (early ++ late) = cost next m + unseenCost size next (early ++ m :: late) :=
  totalCost_remove next (List.range size) early late List.nodup_range (List.mem_range.mpr bound) new

/-- A step takes one off the work left. -/
theorem work_step (inside : Inside size roots next) (valid : Valid size roots next s)
    (busy : s.stack ≠ []) : (s.step next).work size next + 1 = s.work size next := by
  obtain ⟨stack, done⟩ := s
  rcases stack with _ | ⟨⟨n, _ | ⟨m, more⟩⟩, rest⟩
  · exact absurd rfl busy
  · simp [State.step, State.work, State.line]
    omega
  · simp only [State.step]
    split
    · simp [State.work, State.line]
      omega
    next new =>
      have unseen := mt (State.seen_iff _ m).mpr new
      rw [line_top] at unseen
      have removed := unseenCost_insert next (valid.lt inside) unseen
      rw [State.work, State.work, line_push, line_top, removed]
      simp only [List.foldr_cons, List.length_cons, cost]
      omega

theorem run_valid (inside : Inside size roots next) (fuel : Nat) (valid : Valid size roots next s)
    (enough : s.work size next ≤ fuel) :
    Valid size roots next (State.run next fuel s) ∧ (State.run next fuel s).stack = [] := by
  induction fuel generalizing s with
  | zero =>
    refine ⟨valid, ?_⟩
    cases stack : s.stack with
    | nil => exact stack
    | cons frame rest =>
      simp [State.work, stack] at enough
  | succ fuel ih =>
    rw [State.run]
    split
    next empty => exact ⟨valid, List.isEmpty_iff.mp empty⟩
    next busy =>
      have lighter := work_step inside valid (by simpa using busy)
      exact ih (valid_step inside valid) (by omega)

theorem budget_eq (size : Nat) (roots : List Nat) (next : Nat → List Nat) :
    budget size roots next = State.work size next ⟨[(size, roots)], []⟩ := by
  have all : (List.range size).filter (fun n => !List.contains [size] n) = List.range size := by
    refine List.filter_eq_self.mpr fun n member => ?_
    have bound := List.mem_range.mp member
    simp
    omega
  have line : State.line ⟨[(size, roots)], []⟩ = [size] := rfl
  rw [State.work, line, unseenCost, all]
  rfl

theorem explore_valid (inside : Inside size roots next) :
    Valid size roots next (explore size roots next) ∧ (explore size roots next).stack = [] :=
  run_valid inside _ valid_start (Nat.le_of_eq (budget_eq size roots next).symm)

/-! ### What was found -/

theorem line_explore (inside : Inside size roots next) :
    (explore size roots next).line = order size roots next := by
  simp [State.line, (explore_valid inside).2, order]

theorem order_first (inside : Inside size roots next) :
    ∃ rest, order size roots next = size :: rest := by
  rw [← line_explore inside]
  exact (explore_valid inside).1.first

theorem order_nodup (inside : Inside size roots next) : (order size roots next).Nodup := by
  rw [← line_explore inside]
  exact (explore_valid inside).1.distinct

theorem order_le (inside : Inside size roots next) (member : n ∈ order size roots next) :
    n ≤ size := by
  rw [← line_explore inside] at member
  exact (explore_valid inside).1.bounded n member

theorem order_met (inside : Inside size roots next) :
    Met (around size roots next) (order size roots next) := by
  rw [← line_explore inside]
  exact (explore_valid inside).1.met

theorem order_closed (inside : Inside size roots next) (member : n ∈ order size roots next)
    (edge : m ∈ around size roots next n) : m ∈ order size roots next := by
  rw [← line_explore inside]
  exact (explore_valid inside).1.finished n member m edge

theorem root_mem_order (inside : Inside size roots next) : size ∈ order size roots next := by
  obtain ⟨rest, first⟩ := order_first inside
  simp [first]

/-- What is found was led to: on the number of nodes before it, the one it was met through being
among them. -/
theorem led_to (inside : Inside size roots next) (bound : n < size)
    (member : n ∈ order size roots next) :
    ∃ r ∈ roots, Relation.ReflTransGen (fun a b => b ∈ next a) r n := by
  obtain ⟨before, after, split⟩ := List.append_of_mem member
  induction count : before.length using Nat.strongRecOn generalizing before n after with
  | _ k ih =>
    subst count
    have notFirst : before ≠ [] := by
      rintro rfl
      obtain ⟨rest, first⟩ := order_first inside
      rw [first] at split
      have same : size = n := (List.cons.inj split).1
      omega
    obtain ⟨p, earlier, edge⟩ := order_met inside before n after split notFirst
    by_cases root : p = size
    · rw [around, if_pos root] at edge
      exact ⟨n, edge, .refl⟩
    · rw [around, if_neg root] at edge
      have listed : p ∈ order size roots next := by
        rw [split]
        exact List.mem_append_left _ earlier
      have small := order_le inside listed
      obtain ⟨first, second, cut⟩ := List.append_of_mem earlier
      obtain ⟨r, start, way⟩ := ih first.length (by simp [cut]) (n := p) (by omega) listed first
        (second ++ n :: after) (by simp [split, cut]) rfl
      exact ⟨r, start, way.tail edge⟩

/-- What a root leads to is found. -/
theorem found_of_led (inside : Inside size roots next) (start : r ∈ roots)
    (way : Relation.ReflTransGen (fun a b => b ∈ next a) r n) :
    n ∈ order size roots next ∧ n < size := by
  induction way with
  | refl =>
    have edge : r ∈ around size roots next size := by simpa [around] using start
    exact ⟨order_closed inside (root_mem_order inside) edge, inside.roots r start⟩
  | @tail a b _ edge ih =>
    obtain ⟨listed, small⟩ := ih
    have notRoot : a ≠ size := by omega
    have edge' : b ∈ around size roots next a := by simpa [around, notRoot] using edge
    exact ⟨order_closed inside listed edge', inside.next a small b edge⟩

theorem mem_order (inside : Inside size roots next) (bound : n < size) :
    n ∈ order size roots next ↔ ∃ r ∈ roots, Relation.ReflTransGen (fun a b => b ∈ next a) r n :=
  ⟨led_to inside bound, fun ⟨_, start, way⟩ => (found_of_led inside start way).1⟩

/-- Where nothing comes twice, a node has one position. -/
theorem idxOf?_iff {nodes : List Nat} (distinct : nodes.Nodup) :
    nodes.idxOf? n = some i ↔ nodes[i]? = some n := by
  constructor
  · intro found
    obtain ⟨bound, same, _⟩ := List.findIdx?_eq_some_iff_getElem.mp found
    rw [List.getElem?_eq_getElem bound, beq_iff_eq.mp same]
  · intro there
    obtain ⟨bound, same⟩ := List.getElem?_eq_some_iff.mp there
    refine List.findIdx?_eq_some_iff_getElem.mpr ⟨bound, by simp [same], fun j earlier also => ?_⟩
    have equal : nodes[j]? = nodes[i]? := by
      rw [there, List.getElem?_eq_getElem (by omega), beq_iff_eq.mp also]
    have := (List.getElem?_inj (by omega) distinct).mp equal
    omega

end ProgramDependence.Search
