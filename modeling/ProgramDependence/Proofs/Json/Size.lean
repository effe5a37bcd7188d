import Mathlib.Algebra.Order.BigOperators.Group.List
import Mathlib.Algebra.Order.Ring.Nat
import ProgramDependence.Json.Reader

/-! How much a text can say. Every value in it takes a character of its own, so no more values are read
from a text than it has characters, and what a record takes from its fields it takes only once. -/
namespace ProgramDependence.Json

mutual

/-- The number of values in a value, itself included. -/
def weight : Json → Nat
  | .arr items => weightItems items + 1
  | .obj entries => weightEntries entries + 1
  | .null | .bool _ | .int _ | .real | .str _ => 1

def weightItems : List Json → Nat
  | [] => 0
  | x :: xs => weight x + weightItems xs

def weightEntries : List (String × Json) → Nat
  | [] => 0
  | (_, x) :: es => weight x + weightEntries es

end

theorem weightItems_eq (items : List Json) : weightItems items = (items.map weight).sum := by
  induction items with
  | nil => rfl
  | cons x xs ih => rw [weightItems, ih, List.map_cons, List.sum_cons]

theorem weightEntries_eq (entries : List (String × Json)) :
    weightEntries entries = (entries.map fun entry => entry.2.weight).sum := by
  induction entries with
  | nil => rfl
  | cons e es ih => rw [weightEntries, ih, List.map_cons, List.sum_cons]

/-! ### Texts -/

theorem skipSpace_length (cs : List Char) : (skipSpace cs).length ≤ cs.length :=
  (List.dropWhile_sublist _).length_le

theorem consPiece_eq_some {read : Option (List Piece × List Char)}
    (found : consPiece p read = some (ps, rest)) : ∃ qs, read = some (qs, rest) := by
  obtain ⟨⟨qs, _⟩, same, pair⟩ := Option.map_eq_some_iff.mp found
  cases pair
  exact ⟨qs, same⟩

/-- A string takes at least its closing quote. -/
theorem pieces_length (read : pieces cs = some (ps, rest)) : rest.length < cs.length := by
  induction cs using pieces.induct generalizing ps with
  | case1 => cases read
  | case2 after =>
    rw [pieces.eq_def] at read
    simp only [↓reduceIte, Option.some.injEq, Prod.mk.injEq] at read
    rw [read.2, List.length_cons]
    exact Nat.lt_succ_self _
  | case3 a b c d after bad _ => simp [pieces, bad] at read
  | case4 a b c d after n unit _ ih =>
    simp only [pieces, unit, ↓reduceIte] at read
    obtain ⟨qs, found⟩ := consPiece_eq_some read
    have shorter := ih found
    simp only [List.length_cons]
    omega
  | case5 e after other bad _ => simp [pieces, bad] at read
  | case6 e after other c escape _ ih =>
    simp only [pieces, escape, ↓reduceIte] at read
    obtain ⟨qs, found⟩ := consPiece_eq_some read
    have shorter := ih found
    simp only [List.length_cons]
    omega
  | case7 => simp [pieces] at read
  | case8 c after notQuote notSlash low =>
    rw [pieces.eq_def] at read
    simp [notQuote, notSlash, low] at read
  | case9 c after notQuote notSlash high ih =>
    rw [pieces.eq_def] at read
    simp only [if_neg notQuote, if_neg notSlash, if_neg high] at read
    obtain ⟨qs, found⟩ := consPiece_eq_some read
    exact (ih found).trans (Nat.lt_succ_self _)

theorem stringTail_length {strict : Bool} (read : stringTail strict cs = some (s, rest)) :
    rest.length < cs.length := by
  unfold stringTail at read
  cases found : pieces cs with
  | none => simp [found] at read
  | some taken =>
    obtain ⟨ps, after⟩ := taken
    have same : after = rest := by
      cases strict with
      | false =>
        simp only [found, Bool.false_eq_true, ↓reduceIte, Option.some.injEq, Prod.mk.injEq] at read
        exact read.2
      | true =>
        simp only [found, ↓reduceIte, Option.map_eq_some_iff, Prod.mk.injEq] at read
        obtain ⟨_, _, _, same⟩ := read
        exact same
    exact same ▸ pieces_length found

theorem digits_length (cs : List Char) : (digits cs).1.length + (digits cs).2.length = cs.length := by
  rw [← List.length_append, digits, List.takeWhile_append_dropWhile]

theorem fractionPart_length (read : fractionPart cs = some (f, rest)) : rest.length ≤ cs.length := by
  unfold fractionPart at read
  split at read
  next after =>
    have whole := digits_length after
    simp only at read
    split at read
    · cases read
    · cases read
      rw [List.length_cons]
      omega
  next =>
    cases read
    exact Nat.le_refl _

theorem exponentDigits_length {negative : Bool} (read : exponentDigits negative cs = some (e, rest)) :
    rest.length ≤ cs.length := by
  have whole := digits_length cs
  simp only [exponentDigits] at read
  split at read
  · cases read
  · cases read
    omega

theorem exponentPart_length (read : exponentPart cs = some (e, rest)) : rest.length ≤ cs.length := by
  unfold exponentPart at read
  split at read
  next c after =>
    split at read
    · unfold exponentSigned at read
      split at read <;> have shorter := exponentDigits_length read <;> simp at * <;> omega
    · cases read
      exact Nat.le_refl _
  next =>
    cases read
    exact Nat.le_refl _

theorem unsignedNumeral_length {negative : Bool} (read : unsignedNumeral negative cs = some (n, rest)) :
    rest.length < cs.length := by
  have whole := digits_length cs
  simp only [unsignedNumeral] at read
  split at read
  · cases read
  next nonempty =>
    simp only [Option.bind_eq_bind, Option.bind_eq_some_iff, Prod.exists] at read
    obtain ⟨f, afterFraction, fraction, e, afterExponent, exponent, same⟩ := read
    cases same
    have first := fractionPart_length fraction
    have second := exponentPart_length exponent
    have some : 0 < (digits cs).1.length := by
      apply List.length_pos_of_ne_nil
      rintro none
      simp [none] at nonempty
    omega

theorem number_length {strict : Bool} (read : number strict cs = some (j, rest)) :
    rest.length < cs.length := by
  simp only [number, Option.bind_eq_bind, Option.bind_eq_some_iff, Prod.exists] at read
  obtain ⟨n, after, numeral, _, _, same⟩ := read
  cases same
  unfold Json.numeral at numeral
  split at numeral
  · exact (unsignedNumeral_length numeral).trans (Nat.lt_succ_self _)
  · exact unsignedNumeral_length numeral

theorem Numeral.toJson_weight {n : Numeral} {strict : Bool} (made : n.toJson strict = some j) :
    j.weight = 1 := by
  unfold Numeral.toJson at made
  split at made
  · cases made
    rfl
  · split at made <;> cases made
    rfl

/-! ### Values -/

/-- What is read is no larger than the text taken for it. -/
def Pays (size : α → Nat) (read : Reader α) : Prop :=
  ∀ cs x rest, read cs = some (x, rest) → size x + rest.length ≤ cs.length

theorem number_pays (strict : Bool) : Pays weight (number strict) := by
  intro cs j rest read
  have shorter := number_length read
  simp only [number, Option.bind_eq_bind, Option.bind_eq_some_iff, Prod.exists] at read
  obtain ⟨n, after, _, j', made, same⟩ := read
  cases same
  rw [Numeral.toJson_weight made]
  omega

/-- The first character of a literal pays for it. -/
theorem literal_length {word : List Char} (light : j.weight = 1) (read : literal word j cs = some (x, rest)) :
    x.weight + rest.length ≤ cs.length + 1 := by
  unfold literal at read
  split at read <;> cases read
  have shorter := (List.drop_sublist word.length cs).length_le
  omega

theorem sequence_pays {size : α → Nat} {item : Reader α} (pays : Pays size item) (close : Char)
    (fuel : Nat) : Pays (fun xs => (xs.map size).sum) (sequence close item fuel) := by
  induction fuel with
  | zero =>
    intro cs xs rest read
    cases read
  | succ fuel ih =>
    intro cs xs rest read
    simp only [sequence] at read
    cases first : item cs with
    | none => simp [first] at read
    | some taken =>
      obtain ⟨x, after⟩ := taken
      have paid := pays cs x after first
      have space := skipSpace_length after
      cases skipped : skipSpace after with
      | nil => simp [first, skipped] at read
      | cons c more =>
        rw [skipped, List.length_cons] at space
        simp only [first, skipped] at read
        split at read
        · obtain ⟨⟨xs', rest'⟩, found, same⟩ := Option.map_eq_some_iff.mp read
          cases same
          have others := ih more xs' _ found
          simp only [List.map_cons, List.sum_cons] at others ⊢
          omega
        · split at read <;> cases read
          simp only [List.map_cons, List.map_nil, List.sum_cons, List.sum_nil]
          omega

theorem sequenceOrEmpty_pays {size : α → Nat} {item : Reader α} (pays : Pays size item) (close : Char) :
    Pays (fun xs => (xs.map size).sum) (sequenceOrEmpty close item) := by
  intro cs xs rest read
  have space := skipSpace_length cs
  unfold sequenceOrEmpty at read
  cases skipped : skipSpace cs with
  | nil => simp [skipped] at read
  | cons c more =>
    rw [skipped, List.length_cons] at space
    simp only [skipped] at read
    split at read
    · cases read
      simp only [List.map_nil, List.sum_nil]
      omega
    · exact sequence_pays pays close cs.length cs xs rest read

theorem entry_pays {size : α → Nat} {item : String → Reader α} (pays : ∀ key, Pays size (item key))
    (strict : Bool) : Pays (fun e => size e.2) (entry strict item) := by
  intro cs x rest read
  have space := skipSpace_length cs
  unfold entry at read
  split at read
  next after skipped =>
    rw [skipped, List.length_cons] at space
    split at read
    · cases read
    next key afterKey tail =>
      have shorter := stringTail_length tail
      have spaceAfter := skipSpace_length afterKey
      split at read
      next more colon =>
        rw [colon, List.length_cons] at spaceAfter
        obtain ⟨⟨y, rest'⟩, found, same⟩ := Option.map_eq_some_iff.mp read
        cases same
        have paid := pays _ more y _ found
        simp only
        omega
      next => cases read
  next => cases read

theorem value_pays_of {strict : Bool} {depth : Nat}
    (below : ∀ d, depth = d + 1 → Pays weight (value strict d)) : Pays weight (value strict depth) := by
  intro cs j rest read
  have space := skipSpace_length cs
  rw [value.eq_def] at read
  simp only at read
  split at read
  · cases read
  next c after skipped =>
    rw [skipped, List.length_cons] at space
    split at read
    · obtain ⟨⟨s, rest'⟩, tail, same⟩ := Option.map_eq_some_iff.mp read
      cases same
      have shorter := stringTail_length tail
      simp only [weight]
      omega
    · split at read
      · split at read
        · cases read
        next d =>
          obtain ⟨⟨xs, rest'⟩, found, same⟩ := Option.map_eq_some_iff.mp read
          cases same
          have paid := sequenceOrEmpty_pays (below d rfl) ']' after xs _ found
          simp only [weight, weightItems_eq] at paid ⊢
          omega
      · split at read
        · split at read
          · cases read
          next d =>
            obtain ⟨⟨es, rest'⟩, found, same⟩ := Option.map_eq_some_iff.mp read
            cases same
            have paid := sequenceOrEmpty_pays (entry_pays (fun _ => below d rfl) strict) '\x7d' after es _ found
            simp only [weight, weightEntries_eq] at paid ⊢
            omega
        · split at read
          · exact (literal_length rfl read).trans space
          · split at read
            · exact (literal_length rfl read).trans space
            · split at read
              · exact (literal_length rfl read).trans space
              · exact (number_pays strict _ j rest read).trans space

/-- No more values are read than there are characters. -/
theorem value_pays (strict : Bool) (depth : Nat) : Pays weight (value strict depth) := by
  induction depth with
  | zero => exact value_pays_of fun d below => absurd below (Nat.succ_ne_zero d).symm
  | succ depth ih =>
    apply value_pays_of
    intro d below
    exact Nat.succ.inj below ▸ ih

theorem weight_le_of_read? {text : List Char} (read : read? text = some j) : j.weight ≤ text.length := by
  unfold read? whole at read
  split at read
  · cases read
  next x rest found =>
    split at read <;> cases read
    have paid := value_pays true depthLimit text j rest found
    omega

end ProgramDependence.Json
