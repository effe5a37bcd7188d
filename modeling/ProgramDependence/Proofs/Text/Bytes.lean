import Mathlib.Data.String.Basic

/-! The order of texts is the order of their bytes: an encoded character comes before that of any
later character, whatever follows either. -/
namespace ProgramDependence.Text

/-- The UTF-8 bytes of a text. -/
def bytes (s : String) : List UInt8 := s.toUTF8.data.toList

theorem bytes_eq (s : String) : bytes s = s.toList.flatMap String.utf8EncodeChar := by
  conv_lhs => rw [bytes, ← String.ofList_toList (s := s), String.toUTF8_eq_toByteArray,
    String.toByteArray_ofList, List.utf8Encode]
  simp

/-- Every character takes a byte at least. -/
theorem length_le_size (s : String) : s.toList.length ≤ s.toUTF8.size := by
  have encoded : s.toUTF8.size = (s.toList.flatMap String.utf8EncodeChar).length := by
    rw [← bytes_eq, bytes, Array.length_toList, ByteArray.size]
  rw [encoded]
  induction s.toList with
  | nil => exact Nat.le_refl _
  | cons c cs ih =>
    have some : 0 < c.utf8Size := c.utf8Size_pos
    rw [List.flatMap_cons, List.length_append, String.length_utf8EncodeChar, List.length_cons]
    omega

theorem fromUTF8?_toUTF8 (s : String) : String.fromUTF8? s.toUTF8 = some s :=
  dif_pos s.isValidUTF8

section Char

variable {a b : Nat}

theorem ofNat_lt (ha : a < 256) (hb : b < 256) : UInt8.ofNat a < UInt8.ofNat b ↔ a < b := by
  rw [UInt8.lt_iff_toNat_lt, UInt8.toNat_ofNat', UInt8.toNat_ofNat', Nat.mod_eq_of_lt ha,
    Nat.mod_eq_of_lt hb]

theorem ofNat_inj (ha : a < 256) (hb : b < 256) : UInt8.ofNat a = UInt8.ofNat b ↔ a = b := by
  rw [← UInt8.toNat_inj, UInt8.toNat_ofNat', UInt8.toNat_ofNat', Nat.mod_eq_of_lt ha,
    Nat.mod_eq_of_lt hb]

/-- The leading byte gives how many follow, and more follow a later character. Of two with equally
many, the bits are compared from the highest down. -/
theorem encodeChar_lt {c d : Char} (before : c < d) (xs ys : List UInt8) :
    String.utf8EncodeChar c ++ xs < String.utf8EncodeChar d ++ ys := by
  have order : c.val.toNat < d.val.toNat := before
  have small : d.val.toNat < 1114112 := by
    rcases d.valid with low | ⟨_, high⟩
    · exact Nat.lt_trans low (by decide)
    · exact high
  have shift (n : Nat) : n / 4096 = n / 64 / 64 ∧ n / 262144 = n / 64 / 64 / 64 := by omega
  unfold String.utf8EncodeChar
  generalize c.val.toNat = v at *
  generalize d.val.toNat = w at *
  dsimp only
  rw [(shift v).1, (shift v).2, (shift w).1, (shift w).2]
  split_ifs <;>
    simp (disch := omega) only [List.cons_append, List.nil_append, List.cons_lt_cons_iff, ofNat_lt,
      ofNat_inj] <;>
    omega

end Char

theorem flatMap_encode_lt {cs ds : List Char} (before : cs < ds) :
    cs.flatMap String.utf8EncodeChar < ds.flatMap String.utf8EncodeChar := by
  induction before with
  | @nil d ds =>
    rw [List.flatMap_nil, List.flatMap_cons]
    cases first : String.utf8EncodeChar d with
    | nil => exact absurd first String.utf8EncodeChar_ne_nil
    | cons byte rest => exact List.Lex.nil
  | @rel c cs d ds first => exact encodeChar_lt first _ _
  | @cons c cs ds _ ih =>
    rw [List.flatMap_cons, List.flatMap_cons]
    exact List.append_left_lt ih

theorem lt_iff_bytes (s t : String) : s < t ↔ bytes s < bytes t := by
  rw [bytes_eq, bytes_eq, String.lt_iff_toList_lt]
  constructor
  · exact flatMap_encode_lt
  · intro before
    rcases lt_trichotomy s t with first | rfl | second
    · exact String.lt_iff_toList_lt.mp first
    · exact absurd before (List.lt_irrefl _)
    · exact absurd before (List.lt_asymm (flatMap_encode_lt (String.lt_iff_toList_lt.mp second)))

end ProgramDependence.Text
