import ProgramDependence.Proofs.Text.Bytes
import ProgramDependence.Proofs.Text.Lines

/-! Cutting bytes into lines is cutting the text they encode. A line end is a single byte, and that byte
occurs in no other character. -/
namespace ProgramDependence.Text

/-- The bytes of a list of characters. -/
def encode (cs : List Char) : List UInt8 := cs.flatMap String.utf8EncodeChar

@[simp] theorem encode_nil : encode [] = [] := rfl

@[simp] theorem encode_cons (c : Char) (cs : List Char) :
    encode (c :: cs) = String.utf8EncodeChar c ++ encode cs := List.flatMap_cons

theorem encode_append (cs ds : List Char) : encode (cs ++ ds) = encode cs ++ encode ds :=
  List.flatMap_append

theorem encode_eq_nil {cs : List Char} : encode cs = [] ↔ cs = [] := by
  cases cs with
  | nil => simp
  | cons c cs => simp [String.utf8EncodeChar_ne_nil]

theorem encode_toList (s : String) : encode s.toList = bytes s := (bytes_eq s).symm

theorem fromUTF8?_encode (cs : List Char) :
    String.fromUTF8? ⟨(encode cs).toArray⟩ = some (String.ofList cs) := by
  have whole : (⟨(encode cs).toArray⟩ : ByteArray) = (String.ofList cs).toUTF8 := by
    apply ByteArray.ext
    rw [← String.toList_ofList (l := cs), encode_toList, String.toList_ofList, bytes, Array.toArray_toList]
  rw [whole, fromUTF8?_toUTF8]

/-- A byte below 128 is a character of its own. -/
theorem eq_of_mem_encodeChar {b : UInt8} {c : Char} (small : b.toNat < 128)
    (member : b ∈ String.utf8EncodeChar c) : c.val.toNat = b.toNat := by
  unfold String.utf8EncodeChar at member
  generalize c.val.toNat = v at *
  dsimp only at member
  split_ifs at member <;>
    simp only [List.mem_cons, List.not_mem_nil, or_false] at member
  · subst member
    rw [UInt8.toNat_ofNat']
    omega
  all_goals
    rcases member with rfl | rfl | rfl | rfl
    all_goals
      rw [UInt8.toNat_ofNat'] at small
      omega

theorem notMem_encodeChar {b : UInt8} {c d : Char} (small : b.toNat < 128) (is : d.val.toNat = b.toNat)
    (differs : c ≠ d) : b ∉ String.utf8EncodeChar c := by
  intro member
  apply differs
  apply Char.ext
  apply UInt32.toNat_inj.mp
  rw [eq_of_mem_encodeChar small member, is]

/-! ### Pieces -/

section Pieces

variable {α : Type} [DecidableEq α] {sep : α}

/-- What holds no separator goes to the front of the first piece. -/
theorem pieces_append_of_notMem {front : List α} (absent : sep ∉ front) {text piece : List α}
    {more : List (List α)} (cut : pieces sep text = piece :: more) :
    pieces sep (front ++ text) = (front ++ piece) :: more := by
  induction front with
  | nil => exact cut
  | cons c front ih =>
    have differs : c ≠ sep := fun same => absent (same ▸ List.mem_cons_self)
    have rest := ih fun member => absent (List.mem_cons_of_mem c member)
    simp only [List.cons_append, pieces, if_neg differs, rest]

end Pieces

theorem pieces_encode (cs : List Char) : pieces 10 (encode cs) = (pieces '\n' cs).map encode := by
  induction cs with
  | nil => rfl
  | cons c cs ih =>
    by_cases ends : c = '\n'
    · subst ends
      have single : String.utf8EncodeChar '\n' = [10] := rfl
      simp only [encode_cons, single, List.cons_append, List.nil_append, pieces, ↓reduceIte, ih,
        List.map_cons, encode_nil]
    · have absent : 10 ∉ String.utf8EncodeChar c := notMem_encodeChar (by decide) rfl ends
      cases cut : pieces '\n' cs with
      | nil => exact absurd cut (pieces_ne_nil cs)
      | cons piece more =>
        rw [cut, List.map_cons] at ih
        rw [encode_cons, pieces_append_of_notMem absent ih]
        simp only [pieces, if_neg ends, cut, List.map_cons, encode_cons]

theorem dropReturn_encode (line : List Char) :
    dropReturn 13 (encode line) = encode (dropReturn '\r' line) := by
  rcases List.eq_nil_or_concat' line with rfl | ⟨front, c, rfl⟩
  · rfl
  · by_cases returns : c = '\r'
    · subst returns
      have single : encode ['\r'] = [13] := rfl
      simp [dropReturn, encode_append, single]
    · have absent : 13 ∉ String.utf8EncodeChar c := notMem_encodeChar (by decide) rfl returns
      have last : (encode (front ++ [c])).getLast? ≠ some 13 := by
        have some : encode [c] ≠ [] := mt encode_eq_nil.mp (List.cons_ne_nil c [])
        rw [encode_append, List.getLast?_append_of_ne_nil _ some]
        intro found
        have member : 13 ∈ encode [c] := List.mem_of_getLast? found
        rw [encode_cons, encode_nil, List.append_nil] at member
        exact absent member
      rw [dropReturn, if_neg last, dropReturn, if_neg (by simpa using returns)]

theorem byteLines_encode (cs : List Char) : byteLines (encode cs) = (lines cs).map encode := by
  have ends : (pieces '\n' cs).dropLast.map (dropReturn 13 ∘ encode) =
      (pieces '\n' cs).dropLast.map (encode ∘ dropReturn '\r') :=
    List.map_congr_left fun line _ => dropReturn_encode line
  simp only [byteLines, lines, linesOver, pieces_encode, ← List.map_dropLast, List.map_map, ends,
    List.getLast?_map]
  cases (pieces '\n' cs).getLast? with
  | none => simp
  | some last =>
    by_cases empty : last = []
    · simp [empty]
    · simp [empty, encode_eq_nil]

end ProgramDependence.Text
