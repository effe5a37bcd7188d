import Mathlib.Data.List.Basic
import ProgramDependence.Text.Blank
import ProgramDependence.Text.Lines

/-! Cutting text undoes joining it: lines that were ended one by one come back as they were, and
the first separator is where the text is cut. -/
namespace ProgramDependence.Text

variable {α : Type} [DecidableEq α] {sep : α}

theorem cutAt_append (before after : List α) (absent : sep ∉ before) :
    cutAt sep (before ++ sep :: after) = some (before, after) := by
  induction before with
  | nil => simp [cutAt]
  | cons c before ih =>
    have differs : c ≠ sep := fun same => absent (same ▸ List.mem_cons_self)
    have rest := ih fun member => absent (List.mem_cons_of_mem c member)
    simp only [List.cons_append, cutAt, if_neg differs, rest, Option.map_some]

theorem pieces_ne_nil (text : List α) : pieces sep text ≠ [] := by
  fun_cases pieces sep text <;> simp

theorem pieces_cons_of_ne {c : α} (differs : c ≠ sep) (text : List α) :
    ∃ piece more, pieces sep text = piece :: more ∧ pieces sep (c :: text) = (c :: piece) :: more := by
  cases cut : pieces sep text with
  | nil => exact absurd cut (pieces_ne_nil text)
  | cons piece more => exact ⟨piece, more, rfl, by simp only [pieces, if_neg differs, cut]⟩

/-- A separator ends the pieces before it. -/
theorem pieces_append_sep (front rest : List α) :
    pieces sep (front ++ sep :: rest) = pieces sep front ++ pieces sep rest := by
  induction front with
  | nil => simp [pieces]
  | cons c front ih =>
    by_cases same : c = sep
    · simp [pieces, same, ih]
    · obtain ⟨piece, more, cut, cut'⟩ := pieces_cons_of_ne same front
      obtain ⟨piece', more', whole, whole'⟩ := pieces_cons_of_ne same (front ++ sep :: rest)
      rw [List.cons_append, whole', cut']
      rw [ih, cut] at whole
      injection whole with first others
      rw [← first, ← others]
      rfl

theorem notMem_of_mem_pieces {piece text : List α} (member : piece ∈ pieces sep text) : sep ∉ piece := by
  induction text generalizing piece with
  | nil =>
    obtain rfl := List.mem_singleton.mp member
    exact List.not_mem_nil
  | cons c text ih =>
    by_cases same : c = sep
    · simp only [pieces, same, ↓reduceIte, List.mem_cons] at member
      rcases member with rfl | later
      · exact List.not_mem_nil
      · exact ih later
    · obtain ⟨first, more, cut, cut'⟩ := pieces_cons_of_ne same text
      rw [cut'] at member
      rw [cut] at ih
      rcases List.mem_cons.mp member with rfl | later
      · intro here
        rcases List.mem_cons.mp here with is | inFirst
        · exact same is.symm
        · exact ih List.mem_cons_self inFirst
      · exact ih (List.mem_cons_of_mem _ later)

theorem pieces_eq_singleton {text : List α} (absent : sep ∉ text) : pieces sep text = [text] := by
  induction text with
  | nil => rfl
  | cons c text ih =>
    have differs : c ≠ sep := fun same => absent (same ▸ List.mem_cons_self)
    simp only [pieces, if_neg differs, ih fun member => absent (List.mem_cons_of_mem c member)]

theorem pieces_append (line rest : List α) (absent : sep ∉ line) :
    pieces sep (line ++ sep :: rest) = line :: pieces sep rest := by
  rw [pieces_append_sep, pieces_eq_singleton absent, List.singleton_append]

/-- Lines, each with its end. -/
def unlines (lf : α) (lines : List (List α)) : List α := (lines.map (· ++ [lf])).flatten

theorem pieces_unlines (lf : α) (lines : List (List α)) (absent : ∀ line ∈ lines, lf ∉ line) :
    pieces lf (unlines lf lines) = lines ++ [[]] := by
  induction lines with
  | nil => rfl
  | cons line lines ih =>
    have here := absent line List.mem_cons_self
    have rest := ih fun other member => absent other (List.mem_cons_of_mem line member)
    have cut : unlines lf (line :: lines) = line ++ lf :: unlines lf lines := by simp [unlines]
    rw [cut, pieces_append line _ here, rest, List.cons_append]

/-- Lines without a line end in them, none of which ends in a return, come back. -/
theorem linesOver_unlines (lf cr : α) (lines : List (List α)) (absent : ∀ line ∈ lines, lf ∉ line)
    (noReturn : ∀ line ∈ lines, line.getLast? ≠ some cr) :
    linesOver lf cr (unlines lf lines) = lines := by
  have kept : lines.map (dropReturn cr) = lines := by
    refine (List.map_congr_left fun line member => ?_).trans (List.map_id lines)
    exact if_neg (noReturn line member)
  simp only [linesOver, pieces_unlines lf lines absent, List.dropLast_concat, kept,
    List.getLast?_concat, List.isEmpty_nil, ↓reduceIte]

/-! ### Groups of lines -/

/-- The groups of lines between empty lines. A text without a line has no group. -/
def paragraphs (text : List Char) : List (List (List Char)) :=
  if lines text = [] then [] else (lines text).splitOn []

theorem eq_nil_or_mem_of_mem_intercalate {line : List Char} (groups : List (List (List Char)))
    (member : line ∈ [[]].intercalate groups) : line = [] ∨ ∃ group ∈ groups, line ∈ group := by
  induction groups with
  | nil => cases member
  | cons group groups ih =>
    cases groups with
    | nil =>
      rw [List.intercalate_singleton] at member
      exact .inr ⟨group, List.mem_cons_self, member⟩
    | cons next groups =>
      simp only [List.intercalate_cons_cons, List.append_assoc, List.mem_append, List.mem_singleton] at member
      rcases member with first | empty | later
      · exact .inr ⟨group, List.mem_cons_self, first⟩
      · exact .inl empty
      · exact (ih later).imp_right fun ⟨other, among, inOther⟩ =>
          ⟨other, List.mem_cons_of_mem group among, inOther⟩

theorem intercalate_ne_nil {β : Type} {between : β} {first : List β} (some : first ≠ [])
    (rest : List (List β)) : [between].intercalate (first :: rest) ≠ [] := by
  cases rest <;> simp [List.intercalate_singleton, List.intercalate_cons_cons, some]

/-- Groups that are written with an empty line between them come back. -/
theorem paragraphs_unlines (groups : List (List (List Char))) (nonempty : [] ∉ groups)
    (clean : ∀ group ∈ groups, ∀ line ∈ group, line ≠ [] ∧ '\n' ∉ line ∧ line.getLast? ≠ some '\r') :
    paragraphs (unlines '\n' ([[]].intercalate groups)) = groups := by
  have cut : lines (unlines '\n' ([[]].intercalate groups)) = [[]].intercalate groups := by
    apply linesOver_unlines
    · intro line member
      rcases eq_nil_or_mem_of_mem_intercalate groups member with rfl | ⟨group, among, inGroup⟩
      · exact List.not_mem_nil
      · exact (clean group among line inGroup).2.1
    · intro line member
      rcases eq_nil_or_mem_of_mem_intercalate groups member with rfl | ⟨group, among, inGroup⟩
      · nofun
      · exact (clean group among line inGroup).2.2
  rw [paragraphs, cut]
  cases groups with
  | nil => rfl
  | cons group groups =>
    have first : group ≠ [] := fun empty => nonempty (empty ▸ List.mem_cons_self)
    rw [if_neg (intercalate_ne_nil first groups)]
    apply List.splitOn_intercalate _ _ (List.cons_ne_nil group groups)
    exact fun other among empty => (clean other among [] empty).1 rfl

end ProgramDependence.Text
