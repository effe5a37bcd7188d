import Mathlib.Data.List.Basic
import ProgramDependence.Json.Reader
import ProgramDependence.Json.Writer

/-! Strings and integers read back as they were written, whatever follows them. -/
namespace ProgramDependence.Json

/-- What may follow a value: nothing that could be more of a number. -/
def Stops (rest : List Char) : Prop :=
  ∀ c ∈ rest.head?, c.isDigit = false ∧ c ≠ '.' ∧ c ≠ 'e' ∧ c ≠ 'E'

/-- `read` takes exactly `text` for `x`. -/
def Reads (read : Reader α) (text : List Char) (x : α) : Prop :=
  ∀ rest, Stops rest → read (text ++ rest) = some (x, rest)

theorem stops_nil : Stops [] := by simp [Stops]

theorem stops_cons (h : c.isDigit = false ∧ c ≠ '.' ∧ c ≠ 'e' ∧ c ≠ 'E') : Stops (c :: rest) := by
  intro d member
  cases Option.mem_some_iff.mp member
  exact h

theorem skipSpace_cons (h : isSpace c = false) (rest : List Char) :
    skipSpace (c :: rest) = c :: rest := by
  simp [skipSpace, h]

/-! ### Strings -/

theorem hexDigit?_hexChar : ∀ n < 16, hexDigit? (hexChar n) = some n := by decide

/-- The part of a string that a written character is read as. -/
def pieceOf (c : Char) : Piece :=
  if c.toNat < 0x20 ∧ c ≠ '\x08' ∧ c ≠ '\x0c' ∧ c ≠ '\n' ∧ c ≠ '\r' ∧ c ≠ '\t' then .unit c.toNat
  else .char c

theorem pieces_letter (letter : Char) (meant : Char) (notU : letter ≠ 'u')
    (known : escape? letter = some meant) (rest : List Char) :
    pieces ('\\' :: letter :: rest) = consPiece (.char meant) (pieces rest) := by
  rw [pieces]
  · simp only [Char.reduceEq, ↓reduceIte, known]
  · intro a b c d tail same
    exact absurd same notU

theorem pieces_control (c : Char) (low : c.toNat < 0x20) (rest : List Char) :
    pieces ('\\' :: 'u' :: '0' :: '0' :: hexChar (c.toNat / 16) :: hexChar (c.toNat % 16) :: rest) =
      consPiece (.unit c.toNat) (pieces rest) := by
  have high := hexDigit?_hexChar (c.toNat / 16) (by omega)
  have lows := hexDigit?_hexChar (c.toNat % 16) (by omega)
  have zero : hexDigit? '0' = some 0 := by decide
  have unit : unit? '0' '0' (hexChar (c.toNat / 16)) (hexChar (c.toNat % 16)) = some c.toNat := by
    simp only [unit?, zero, high, lows, Option.bind_eq_bind, Option.bind_some]
    congr 1
    omega
  rw [pieces]
  simp only [Char.reduceEq, ↓reduceIte, unit]

theorem pieces_plain (c : Char) (notQuote : c ≠ '"') (notSlash : c ≠ '\\') (high : ¬c.toNat < 0x20)
    (rest : List Char) : pieces (c :: rest) = consPiece (.char c) (pieces rest) := by
  rw [pieces.eq_def]
  simp only [notQuote, notSlash, high, ↓reduceIte]

theorem pieces_escapeChar (c : Char) (rest : List Char) :
    pieces (escapeChar c ++ rest) = consPiece (pieceOf c) (pieces rest) := by
  by_cases quote : c = '"'
  · subst quote; exact pieces_letter '"' '"' (by decide) (by decide) rest
  by_cases slash : c = '\\'
  · subst slash; exact pieces_letter '\\' '\\' (by decide) (by decide) rest
  by_cases back : c = '\x08'
  · subst back; exact pieces_letter 'b' '\x08' (by decide) (by decide) rest
  by_cases form : c = '\x0c'
  · subst form; exact pieces_letter 'f' '\x0c' (by decide) (by decide) rest
  by_cases feed : c = '\n'
  · subst feed; exact pieces_letter 'n' '\n' (by decide) (by decide) rest
  by_cases carriage : c = '\r'
  · subst carriage; exact pieces_letter 'r' '\r' (by decide) (by decide) rest
  by_cases tab : c = '\t'
  · subst tab; exact pieces_letter 't' '\t' (by decide) (by decide) rest
  by_cases low : c.toNat < 0x20
  · simp only [escapeChar, quote, slash, back, form, feed, carriage, tab, low, ↓reduceIte,
      List.cons_append, List.nil_append, pieceOf, ne_eq, not_false_eq_true, and_self]
    exact pieces_control c low rest
  · simp only [escapeChar, quote, slash, back, form, feed, carriage, tab, low, ↓reduceIte,
      List.cons_append, List.nil_append, pieceOf, false_and]
    exact pieces_plain c quote slash low rest

theorem pieces_escaped (cs rest : List Char) :
    pieces (cs.flatMap escapeChar ++ '"' :: rest) = some (cs.map pieceOf, rest) := by
  induction cs with
  | nil =>
    rw [List.flatMap_nil, List.nil_append, pieces.eq_def]
    simp
  | cons c cs ih =>
    rw [List.flatMap_cons, List.append_assoc, pieces_escapeChar, ih]
    rfl

theorem joinPieces_pieceOf (cs : List Char) : joinPieces none (cs.map pieceOf) = some cs := by
  induction cs with
  | nil => rfl
  | cons c cs ih =>
    simp only [List.map_cons, pieceOf]
    split
    next low =>
      -- a control character is no surrogate
      have notLead : isLead c.toNat = false := by simp [isLead]; omega
      have notTrail : isTrail c.toNat = false := by simp [isTrail]; omega
      simp [joinPieces, notLead, notTrail, ih, Char.ofNat_toNat]
    next => simp [joinPieces, ih]

theorem stringTail_strict (cs rest : List Char) :
    stringTail true (cs.flatMap escapeChar ++ '"' :: rest) = some (cs, rest) := by
  simp only [stringTail, pieces_escaped, ↓reduceIte, joinPieces_pieceOf, Option.map_some]

/-! ### Integers -/

theorem natOfDigits_toDigits (n : Nat) : natOfDigits (Nat.toDigits 10 n) = n := by
  have same : natOfDigits (Nat.toDigits 10 n) = Nat.ofDigitChars 10 (Nat.toDigits 10 n) 0 := by
    simp only [natOfDigits, Nat.ofDigitChars_eq_foldl, Nat.mul_comm]
    rfl
  rw [same, Nat.ofDigitChars_ten_toDigits]

/-- Only zero is written with a leading zero. -/
theorem toDigits_head (n : Nat) (zero : (Nat.toDigits 10 n).head? = some '0') : n = 0 := by
  induction n using Nat.strongRecOn with
  | _ n ih =>
    by_cases small : n < 10
    · rw [Nat.toDigits_of_lt_base small] at zero
      have digit : n.digitChar = '0' := Option.some.inj zero
      have value := Nat.toNat_digitChar_sub_48_of_lt_ten small
      rw [digit] at value
      exact value.symm
    · have large : 10 ≤ n := Nat.le_of_not_lt small
      rw [Nat.toDigits_of_base_le (by decide) large,
        List.head?_append_of_ne_nil _ Nat.toDigits_ne_nil] at zero
      have := ih (n / 10) (by omega) zero
      omega

theorem toDigits_no_leading_zero (n : Nat) :
    ((Nat.toDigits 10 n).isEmpty || (decide ((Nat.toDigits 10 n).head? = some '0') &&
      decide ((Nat.toDigits 10 n).length > 1))) = false := by
  have nonempty : (Nat.toDigits 10 n).isEmpty = false := by simp
  rw [nonempty, Bool.false_or]
  by_cases zero : (Nat.toDigits 10 n).head? = some '0'
  · rw [toDigits_head n zero]
    decide
  · simp [zero]

theorem digits_append (ds rest : List Char) (all : ∀ c ∈ ds, c.isDigit = true) (stops : Stops rest) :
    digits (ds ++ rest) = (ds, rest) := by
  have takes : rest.takeWhile Char.isDigit = [] ∧ rest.dropWhile Char.isDigit = rest := by
    cases rest with
    | nil => exact ⟨rfl, rfl⟩
    | cons c rest => simp [(stops c rfl).1]
  simp only [digits, List.takeWhile_append_of_pos all, List.dropWhile_append_of_pos all, takes,
    List.append_nil]

theorem fractionPart_none (stops : Stops rest) : fractionPart rest = some (none, rest) := by
  unfold fractionPart
  split
  next tail => exact absurd rfl (stops '.' rfl).2.1
  next => rfl

theorem exponentPart_none (stops : Stops rest) : exponentPart rest = some (none, rest) := by
  unfold exponentPart
  split
  next c tail =>
    obtain ⟨_, _, small, capital⟩ := stops c rfl
    simp [small, capital]
  next => rfl

theorem unsignedNumeral_toDigits (negative : Bool) (n : Nat) (stops : Stops rest) :
    unsignedNumeral negative (Nat.toDigits 10 n ++ rest) =
      some (⟨negative, Nat.toDigits 10 n, none, none⟩, rest) := by
  have all : ∀ c ∈ Nat.toDigits 10 n, c.isDigit = true := fun c member =>
    Nat.isDigit_of_mem_toDigits (by decide) (by decide) member
  simp only [unsignedNumeral, digits_append _ _ all stops, toDigits_no_leading_zero,
    Bool.false_eq_true, ↓reduceIte, fractionPart_none stops, exponentPart_none stops,
    Option.bind_eq_bind, Option.bind_some]

/-- The integers that a word holds, with or without a sign. -/
def Fits (n : Int) : Prop := -0x8000000000000000 ≤ n ∧ n < UInt64.size

theorem numeral_writeInt (n : Int) (stops : Stops rest) :
    ∃ m : Numeral, numeral (writeInt n ++ rest) = some (m, rest) ∧
      (Fits n → m.integer? = some n) := by
  cases n with
  | ofNat n =>
    refine ⟨⟨false, Nat.toDigits 10 n, none, none⟩, ?_, fun fits => ?_⟩
    · simp only [writeInt]
      have notMinus : ∀ tail, Nat.toDigits 10 n ++ rest ≠ '-' :: tail := by
        intro tail same
        have nonempty : Nat.toDigits 10 n ≠ [] := Nat.toDigits_ne_nil
        obtain ⟨d, ds, cut⟩ := List.exists_cons_of_ne_nil nonempty
        rw [cut, List.cons_append] at same
        have digit : d.isDigit = true := Nat.isDigit_of_mem_toDigits (n := n) (by decide) (by decide)
          (cut ▸ List.mem_cons_self)
        rw [(List.cons.inj same).1] at digit
        exact absurd digit (by decide)
      unfold numeral
      split
      next tail same => exact absurd same (notMinus _)
      next => exact unsignedNumeral_toDigits false n stops
    · have small : n < UInt64.size := by
        have := fits.2
        simp only [Int.ofNat_eq_natCast] at this
        omega
      simp [Numeral.integer?, natOfDigits_toDigits, small]
  | negSucc n =>
    refine ⟨⟨true, Nat.toDigits 10 (n + 1), none, none⟩,
      unsignedNumeral_toDigits true (n + 1) stops, fun fits => ?_⟩
    have small : n + 1 ≤ 0x8000000000000000 := by
      have := fits.1
      omega
    simp only [Numeral.integer?, natOfDigits_toDigits, Option.isSome_none, Bool.or_self,
      Bool.false_eq_true, ↓reduceIte, Nat.zero_lt_succ, small, and_self]
    rfl

theorem number_writeInt (strict : Bool) (n : Int) (fits : Fits n) :
    Reads (number strict) (writeInt n) (.int n) := by
  intro rest stops
  obtain ⟨m, read, integer⟩ := numeral_writeInt n stops
  simp only [number, read, Numeral.toJson, integer fits, Option.bind_eq_bind, Option.bind_some]

end ProgramDependence.Json
