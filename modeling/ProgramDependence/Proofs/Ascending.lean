import Mathlib.Data.List.Sort
import ProgramDependence.Ascending

/-! Strictly ascending lists as sets: insertion keeps them ascending, and two of them with the
same members are the same list. -/
namespace ProgramDependence.Ascending

variable {α : Type} [LT α] [DecidableEq α] [DecidableLT α]

@[simp] theorem mem_insert (x y : α) (ys : List α) : y ∈ insert x ys ↔ y = x ∨ y ∈ ys := by
  induction ys with
  | nil => simp [insert]
  | cons z zs ih =>
    simp only [insert]
    split
    next same => subst same; simp
    next =>
      split
      · simp
      · simp only [List.mem_cons, ih]
        exact or_left_comm

@[simp] theorem mem_foldr_insert (y : α) (xs ys : List α) :
    y ∈ xs.foldr insert ys ↔ y ∈ xs ∨ y ∈ ys := by
  induction xs with
  | nil => simp
  | cons x xs ih => rw [List.foldr_cons, mem_insert, ih, List.mem_cons, or_assoc]

@[simp] theorem mem_ofList (y : α) (xs : List α) : y ∈ ofList xs ↔ y ∈ xs := by
  induction xs with
  | nil => simp [ofList]
  | cons x xs ih =>
    have step : ofList (x :: xs) = insert x (ofList xs) := rfl
    rw [step, mem_insert, ih, List.mem_cons]

theorem length_insert {x : α} {xs : List α} (absent : x ∉ xs) :
    (insert x xs).length = xs.length + 1 := by
  induction xs with
  | nil => rfl
  | cons y ys ih =>
    have differs : x ≠ y := fun same => absent (same ▸ List.mem_cons_self)
    rw [insert, if_neg differs]
    split
    · rfl
    · rw [List.length_cons, List.length_cons, ih fun later => absent (List.mem_cons_of_mem y later)]

section Order

variable [IsStrictTotalOrder α (· < ·)]

theorem insert_ascending (x : α) (ys : List α) (ordered : ys.Pairwise (· < ·)) :
    (insert x ys).Pairwise (· < ·) := by
  induction ys with
  | nil => simp [insert]
  | cons z zs ih =>
    obtain ⟨below, rest⟩ := List.pairwise_cons.mp ordered
    simp only [insert]
    split
    next => exact ordered
    next differs =>
      split
      next before =>
        refine List.pairwise_cons.mpr ⟨?_, ordered⟩
        intro y member
        rcases List.mem_cons.mp member with rfl | later
        · exact before
        · exact IsTrans.trans x z y before (below y later)
      next notBefore =>
        have after : z < x := by
          by_contra notAfter
          exact differs (Std.Trichotomous.trichotomous (r := (· < ·)) x z notBefore notAfter)
        refine List.pairwise_cons.mpr ⟨?_, ih rest⟩
        intro y member
        rcases (mem_insert x y zs).mp member with rfl | later
        · exact after
        · exact below y later

theorem foldr_insert_ascending (xs ys : List α) (ordered : ys.Pairwise (· < ·)) :
    (xs.foldr insert ys).Pairwise (· < ·) := by
  induction xs with
  | nil => exact ordered
  | cons x xs ih => exact insert_ascending x _ ih

theorem ofList_ascending (xs : List α) : (ofList xs).Pairwise (· < ·) := by
  induction xs with
  | nil => exact List.Pairwise.nil
  | cons x xs ih => exact insert_ascending x (ofList xs) ih

/-- What comes after all others goes to the end. -/
theorem insert_after (x : α) (ys : List α) (last : ∀ y ∈ ys, y < x) :
    insert x ys = ys ++ [x] := by
  induction ys with
  | nil => rfl
  | cons y ys ih =>
    have before : y < x := last y List.mem_cons_self
    have differs : x ≠ y := by
      rintro rfl
      exact Std.Irrefl.irrefl (r := (· < ·)) x before
    have notBefore : ¬x < y := fun after =>
      Std.Irrefl.irrefl (r := (· < ·)) x (IsTrans.trans x y x after before)
    simp only [insert, if_neg differs, if_neg notBefore, List.cons_append]
    rw [ih fun z member => last z (List.mem_cons_of_mem y member)]

end Order

theorem sort_eq_insertionSort (ns : List Nat) : sort ns = ns.insertionSort (· ≤ ·) := by
  have step (n : Nat) (ms : List Nat) : place n ms = ms.orderedInsert (· ≤ ·) n := by
    induction ms with
    | nil => rfl
    | cons m ms ih => rw [place, List.orderedInsert_cons, ih]
  induction ns with
  | nil => rfl
  | cons n ns ih => rw [List.insertionSort_cons, ← step, ← ih, sort, sort, List.foldr_cons]

end ProgramDependence.Ascending
