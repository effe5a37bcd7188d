import ProgramDependence.Proofs.Json.Scalar

/-! Values read back as they were written, as long as their integers fit a word and they do not
nest deeper than the reader goes. -/
namespace ProgramDependence.Json

mutual

/-- How deep arrays and objects nest. -/
def nesting : Json → Nat
  | .arr items => nestingItems items + 1
  | .obj entries => nestingEntries entries + 1
  | _ => 0

def nestingItems : List Json → Nat
  | [] => 0
  | x :: xs => max (nesting x) (nestingItems xs)

def nestingEntries : List (String × Json) → Nat
  | [] => 0
  | (_, x) :: es => max (nesting x) (nestingEntries es)

end

mutual

/-- Values whose text says all that they hold. -/
def Writable : Json → Prop
  | .int n => Fits n
  | .real => False
  | .arr items => WritableItems items
  | .obj entries => WritableEntries entries
  | .null | .bool _ | .str _ => True

def WritableItems : List Json → Prop
  | [] => True
  | x :: xs => Writable x ∧ WritableItems xs

def WritableEntries : List (String × Json) → Prop
  | [] => True
  | (_, x) :: es => Writable x ∧ WritableEntries es

end

theorem exists_below {n depth : Nat} (deep : n + 1 ≤ depth) : ∃ d, depth = d + 1 ∧ n ≤ d :=
  ⟨depth - 1, by omega, by omega⟩

/-! ### Sequences -/

/-- Texts after the first one of a sequence. -/
def spread (texts : List (List Char)) : List Char := texts.flatMap (',' :: ·)

theorem length_le_spread (texts : List (List Char)) : texts.length ≤ (spread texts).length := by
  induction texts with
  | nil => exact Nat.zero_le _
  | cons text texts ih =>
    simp only [spread, List.flatMap_cons, List.length_append, List.length_cons] at *
    omega

/-- A bracket that may end a sequence. -/
def Closes (close : Char) : Prop := close = ']' ∨ close = '\x7d'

theorem Closes.stops (h : Closes close) (rest : List Char) : Stops (close :: rest) := by
  rcases h with rfl | rfl <;> exact stops_cons (by decide)

theorem stops_spread (h : Closes close) (texts : List (List Char)) (rest : List Char) :
    Stops (spread texts ++ close :: rest) := by
  cases texts with
  | nil => exact h.stops rest
  | cons => exact stops_cons (by decide)

theorem sequence_reads {item : Reader α} {texts : List (List Char)} {xs : List α} {text : List Char}
    {x : α} {fuel : Nat} (h : Closes close) (first : Reads item text x)
    (others : List.Forall₂ (Reads item) texts xs) (enough : texts.length < fuel) (rest : List Char) :
    sequence close item fuel (text ++ (spread texts ++ close :: rest)) = some (x :: xs, rest) := by
  induction others generalizing text x fuel with
  | nil =>
    obtain ⟨fuel, rfl, _⟩ := exists_below enough
    have read := first _ (h.stops rest)
    simp only [sequence, spread, List.flatMap_nil, List.nil_append, read]
    rcases h with rfl | rfl <;> simp [skipSpace, isSpace]
  | @cons text' x' texts xs second _ ih =>
    obtain ⟨fuel, rfl, _⟩ := exists_below enough
    have read := first _ (stops_spread h (text' :: texts) rest)
    have fewer : texts.length < fuel := by simpa using enough
    have more := ih second fewer
    have cut : spread (text' :: texts) ++ close :: rest =
        ',' :: (text' ++ (spread texts ++ close :: rest)) := by
      simp [spread]
    rw [cut] at read ⊢
    simp only [sequence, read, skipSpace_cons (show isSpace ',' = false by decide), more, ↓reduceIte,
      Option.map_some]

/-- The text of an item starts with something that is neither space nor a closing bracket. -/
def Opens (text : List Char) : Prop :=
  ∃ c tail, text = c :: tail ∧ isSpace c = false ∧ c ≠ ']' ∧ c ≠ '\x7d'

theorem sequenceOrEmpty_reads {item : Reader α} {texts : List (List Char)} {xs : List α}
    {text : List Char} {x : α} (h : Closes close) (opens : Opens text) (first : Reads item text x)
    (others : List.Forall₂ (Reads item) texts xs) (rest : List Char) :
    sequenceOrEmpty close item (text ++ (spread texts ++ close :: rest)) = some (x :: xs, rest) := by
  have enough : texts.length < (text ++ (spread texts ++ close :: rest)).length := by
    have := length_le_spread texts
    simp only [List.length_append, List.length_cons]
    omega
  have read := sequence_reads h first others enough rest
  obtain ⟨c, tail, rfl, notSpace, notSquare, notCurly⟩ := opens
  have differs : c ≠ close := by
    rcases h with rfl | rfl
    · exact notSquare
    · exact notCurly
  simp only [sequenceOrEmpty, List.cons_append, skipSpace_cons notSpace, if_neg differs]
  exact read

theorem sequenceOrEmpty_nil {item : Reader α} (h : Closes close) (rest : List Char) :
    sequenceOrEmpty close item (close :: rest) = some ([], rest) := by
  rcases h with rfl | rfl <;> simp [sequenceOrEmpty, skipSpace, isSpace]

/-! ### One value -/

theorem value_string (strict : Bool) (depth : Nat) (cs : List Char) :
    value strict depth ('"' :: cs) =
      (stringTail strict cs).map fun (s, rest) => (.str (String.ofList s), rest) := by
  rw [value.eq_def]
  simp only [skipSpace_cons (show isSpace '"' = false by decide), ↓reduceIte]

theorem value_array (strict : Bool) (depth : Nat) (cs : List Char) :
    value strict (depth + 1) ('[' :: cs) =
      (sequenceOrEmpty ']' (value strict depth) cs).map fun (xs, rest) => (.arr xs, rest) := by
  rw [value.eq_def]
  simp only [skipSpace_cons (show isSpace '[' = false by decide), Char.reduceEq, ↓reduceIte]

theorem value_object (strict : Bool) (depth : Nat) (cs : List Char) :
    value strict (depth + 1) ('\x7b' :: cs) =
      (sequenceOrEmpty '\x7d' (entry strict fun _ => value strict depth) cs).map
        fun (es, rest) => (.obj es, rest) := by
  rw [value.eq_def]
  simp only [skipSpace_cons (show isSpace '\x7b' = false by decide), Char.reduceEq, ↓reduceIte]

/-- A character that an integer can start with: a sign or a digit. -/
def Leads (c : Char) : Prop := c = '-' ∨ c.isDigit = true

theorem Leads.ne {c d : Char} (leads : Leads c) (sign : d ≠ '-') (digit : d.isDigit = false) :
    c ≠ d := by
  rintro rfl
  rcases leads with same | isDigit
  · exact sign same
  · rw [isDigit] at digit
    cases digit

theorem Leads.not_space {c : Char} (leads : Leads c) : isSpace c = false := by
  have differs (d : Char) (sign : d ≠ '-') (digit : d.isDigit = false) : c ≠ d := leads.ne sign digit
  simp [isSpace, differs ' ', differs '\t', differs '\n', differs '\r']

theorem writeInt_head (n : Int) : ∃ c tail, writeInt n = c :: tail ∧ Leads c := by
  cases n with
  | ofNat n =>
    obtain ⟨d, ds, cut⟩ := List.exists_cons_of_ne_nil (Nat.toDigits_ne_nil (n := n) (b := 10))
    have digit : d.isDigit = true := Nat.isDigit_of_mem_toDigits (n := n) (by decide) (by decide)
      (cut ▸ List.mem_cons_self)
    exact ⟨d, ds, cut, .inr digit⟩
  | negSucc n => exact ⟨'-', _, rfl, .inl rfl⟩

theorem value_number (strict : Bool) (depth : Nat) (n : Int) (fits : Fits n) :
    Reads (value strict depth) (writeInt n) (.int n) := by
  intro rest stops
  have read := number_writeInt strict n fits rest stops
  obtain ⟨c, tail, cut, leads⟩ := writeInt_head n
  have quote : c ≠ '"' := leads.ne (by decide) (by decide)
  have square : c ≠ '[' := leads.ne (by decide) (by decide)
  have curly : c ≠ '\x7b' := leads.ne (by decide) (by decide)
  have null : c ≠ 'n' := leads.ne (by decide) (by decide)
  have yes : c ≠ 't' := leads.ne (by decide) (by decide)
  have no : c ≠ 'f' := leads.ne (by decide) (by decide)
  rw [cut] at read ⊢
  rw [value.eq_def]
  simp only [List.cons_append, skipSpace_cons leads.not_space, quote, square, curly, null, yes, no,
    ↓reduceIte]
  exact read

theorem write_opens (j : Json) : Opens (write j) := by
  cases j with
  | null => exact ⟨_, _, rfl, by decide⟩
  | bool b => cases b <;> exact ⟨_, _, rfl, by decide⟩
  | int n =>
    obtain ⟨c, tail, cut, leads⟩ := writeInt_head n
    exact ⟨c, tail, cut, leads.not_space, leads.ne (by decide) (by decide),
      leads.ne (by decide) (by decide)⟩
  | real => exact ⟨_, _, rfl, by decide⟩
  | str s => exact ⟨_, _, rfl, by decide⟩
  | arr items => cases items <;> exact ⟨_, _, rfl, by decide⟩
  | obj entries => cases entries <;> exact ⟨_, _, rfl, by decide⟩

theorem value_str (depth : Nat) (s : String) : Reads (value true depth) (writeString s) (.str s) := by
  intro rest _
  simp only [writeString, List.cons_append, List.append_assoc, List.nil_append, value_string,
    stringTail_strict, Option.map_some, String.ofList_toList]

/-! ### Entries -/

def entryText (key : String) (text : List Char) : List Char := writeString key ++ ':' :: text

theorem entryText_opens (key : String) (text : List Char) : Opens (entryText key text) :=
  ⟨_, _, rfl, by decide⟩

theorem entry_reads {read : String → Reader α} {key : String} {text : List Char} {x : α}
    (h : Reads (read key) text x) : Reads (entry true read) (entryText key text) (key, x) := by
  intro rest stops
  simp only [entryText, writeString, List.cons_append, List.append_assoc, List.nil_append, entry,
    skipSpace_cons (show isSpace '"' = false by decide), stringTail_strict,
    skipSpace_cons (show isSpace ':' = false by decide), String.ofList_toList, h rest stops,
    Option.map_some]

theorem writeItems_eq (xs : List Json) : writeItems xs = spread (xs.map write) := by
  induction xs with
  | nil => rfl
  | cons x xs ih =>
    simp only [writeItems, ih, spread, List.map_cons, List.flatMap_cons, List.cons_append]

theorem writeEntries_eq (es : List (String × Json)) :
    writeEntries es = spread (es.map fun e => entryText e.1 (write e.2)) := by
  induction es with
  | nil => rfl
  | cons e es ih =>
    simp only [writeEntries, ih, spread, List.map_cons, List.flatMap_cons, entryText,
      List.cons_append, List.append_assoc]

theorem write_obj (e : String × Json) (es : List (String × Json)) (rest : List Char) :
    write (.obj (e :: es)) ++ rest = '\x7b' :: (entryText e.1 (write e.2) ++
      (spread (es.map fun e => entryText e.1 (write e.2)) ++ '\x7d' :: rest)) := by
  simp only [write, writeEntries_eq, entryText, List.cons_append, List.append_assoc, List.nil_append]

theorem write_arr (x : Json) (xs : List Json) (rest : List Char) :
    write (.arr (x :: xs)) ++ rest =
      '[' :: (write x ++ (spread (xs.map write) ++ ']' :: rest)) := by
  simp only [write, writeItems_eq, List.cons_append, List.append_assoc, List.nil_append]

/-! ### All values -/

mutual

/-- A reader that goes deep enough reads back what was written. -/
theorem value_write (j : Json) (depth : Nat) (writable : Writable j) (deep : nesting j ≤ depth) :
    Reads (value true depth) (write j) j := by
  match j with
  | .null =>
    intro rest _
    rw [value.eq_def]
    simp [write, skipSpace, isSpace, literal]
  | .bool true =>
    intro rest _
    rw [value.eq_def]
    simp [write, skipSpace, isSpace, literal]
  | .bool false =>
    intro rest _
    rw [value.eq_def]
    simp [write, skipSpace, isSpace, literal]
  | .int n => exact value_number true depth n writable
  | .real => exact writable.elim
  | .str s => exact value_str depth s
  | .arr [] =>
    intro rest _
    obtain ⟨depth, rfl, _⟩ := exists_below deep
    simp only [write, List.cons_append, List.nil_append, value_array,
      sequenceOrEmpty_nil (.inl rfl), Option.map_some]
  | .arr (x :: xs) =>
    intro rest _
    simp only [nesting, nestingItems] at deep
    obtain ⟨depth, rfl, within⟩ := exists_below deep
    rw [Nat.max_le] at within
    have first := value_write x depth writable.1 within.1
    have others := items_write xs depth writable.2 within.2
    rw [write_arr, value_array, sequenceOrEmpty_reads (.inl rfl) (write_opens x) first others,
      Option.map_some]
  | .obj [] =>
    intro rest _
    obtain ⟨depth, rfl, _⟩ := exists_below deep
    simp only [write, List.cons_append, List.nil_append, value_object,
      sequenceOrEmpty_nil (.inr rfl), Option.map_some]
  | .obj ((k, x) :: es) =>
    intro rest _
    simp only [nesting, nestingEntries] at deep
    obtain ⟨depth, rfl, within⟩ := exists_below deep
    rw [Nat.max_le] at within
    have first := value_write x depth writable.1 within.1
    have others := entries_write es depth writable.2 within.2
    rw [write_obj, value_object, sequenceOrEmpty_reads (.inr rfl) (entryText_opens k (write x))
      (entry_reads first) others, Option.map_some]

theorem items_write (xs : List Json) (depth : Nat) (writable : WritableItems xs)
    (deep : nestingItems xs ≤ depth) :
    List.Forall₂ (Reads (value true depth)) (xs.map write) xs := by
  match xs with
  | [] => exact .nil
  | x :: xs =>
    simp only [nestingItems, Nat.max_le] at deep
    exact .cons (value_write x depth writable.1 deep.1) (items_write xs depth writable.2 deep.2)

theorem entries_write (es : List (String × Json)) (depth : Nat) (writable : WritableEntries es)
    (deep : nestingEntries es ≤ depth) :
    List.Forall₂ (Reads (entry true fun _ => value true depth))
      (es.map fun e => entryText e.1 (write e.2)) es := by
  match es with
  | [] => exact .nil
  | (k, x) :: es =>
    simp only [nestingEntries, Nat.max_le] at deep
    exact .cons (entry_reads (value_write x depth writable.1 deep.1))
      (entries_write es depth writable.2 deep.2)

end

theorem whole_of_reads {read : Reader α} (h : Reads read text x) : whole read text = some x := by
  have read := h [] stops_nil
  rw [List.append_nil] at read
  simp [whole, read, skipSpace]

theorem read?_write (j : Json) (writable : Writable j) (deep : nesting j ≤ depthLimit) :
    read? (write j) = some j :=
  whole_of_reads (value_write j depthLimit writable deep)

/-! ### Written text stays on its line -/

/-- No control characters. -/
def Printable (text : List Char) : Prop := ∀ c ∈ text, 0x20 ≤ c.toNat

theorem Printable.append (h : Printable a) (k : Printable b) : Printable (a ++ b) := by
  intro c member
  rcases List.mem_append.mp member with first | second
  · exact h c first
  · exact k c second

theorem Printable.cons {text : List Char} (h : 0x20 ≤ c.toNat) (k : Printable text) :
    Printable (c :: text) := by
  intro d member
  rcases List.mem_cons.mp member with rfl | later
  · exact h
  · exact k d later

theorem printable_nil : Printable [] := by simp [Printable]

theorem printable_of_all {cs : List Char} (all : cs.all (fun c => 0x20 ≤ c.toNat) = true) :
    Printable cs := by
  simpa [Printable] using all

theorem hexChar_printable : ∀ n < 16, 0x20 ≤ (hexChar n).toNat := by decide

theorem escapeChar_printable (c : Char) : Printable (escapeChar c) := by
  unfold escapeChar
  split_ifs with _ _ _ _ _ _ _ low
  all_goals try exact printable_of_all (by decide)
  · have high := hexChar_printable (c.toNat / 16) (by omega)
    have lows := hexChar_printable (c.toNat % 16) (by omega)
    exact .cons (by decide) (.cons (by decide) (.cons (by decide) (.cons (by decide)
      (.cons high (.cons lows printable_nil)))))
  · exact .cons (by omega) printable_nil

theorem writeString_printable (s : String) : Printable (writeString s) := by
  refine .append (.cons (by decide) fun c member => ?_) (.cons (by decide) printable_nil)
  obtain ⟨d, _, escaped⟩ := List.mem_flatMap.mp member
  exact escapeChar_printable d c escaped

theorem toDigits_printable (n : Nat) : Printable (Nat.toDigits 10 n) := by
  intro c member
  have digit := Nat.isDigit_of_mem_toDigits (by decide) (by decide) member
  simp only [Char.isDigit, Bool.and_eq_true, decide_eq_true_eq] at digit
  have low : '0'.toNat ≤ c.toNat := digit.1
  exact Nat.le_trans (by decide) low

theorem writeInt_printable (n : Int) : Printable (writeInt n) := by
  cases n with
  | ofNat n => exact toDigits_printable n
  | negSucc n => exact .cons (by decide) (toDigits_printable (n + 1))

mutual

theorem write_printable (j : Json) : Printable (write j) := by
  match j with
  | .null => exact printable_of_all (by decide)
  | .bool true => exact printable_of_all (by decide)
  | .bool false => exact printable_of_all (by decide)
  | .int n => exact writeInt_printable n
  | .real => exact printable_of_all (by decide)
  | .str s => exact writeString_printable s
  | .arr [] => exact printable_of_all (by decide)
  | .arr (x :: xs) =>
    exact .append (.append (.cons (by decide) (write_printable x)) (writeItems_printable xs))
      (.cons (by decide) printable_nil)
  | .obj [] => exact printable_of_all (by decide)
  | .obj ((k, x) :: es) =>
    exact .append (.append (.append (.cons (by decide) (writeString_printable k))
      (.cons (by decide) (write_printable x))) (writeEntries_printable es))
      (.cons (by decide) printable_nil)

theorem writeItems_printable (xs : List Json) : Printable (writeItems xs) := by
  match xs with
  | [] => exact printable_nil
  | x :: xs => exact .append (.cons (by decide) (write_printable x)) (writeItems_printable xs)

theorem writeEntries_printable (es : List (String × Json)) : Printable (writeEntries es) := by
  match es with
  | [] => exact printable_nil
  | (k, x) :: es =>
    exact .append (.append (.cons (by decide) (writeString_printable k))
      (.cons (by decide) (write_printable x))) (writeEntries_printable es)

end

end ProgramDependence.Json
