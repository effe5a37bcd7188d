import ProgramDependence.Code.Decode
import ProgramDependence.Code.Encode
import ProgramDependence.Proofs.Graph.Record
import ProgramDependence.Proofs.Json.Fields

/-! Statements read back as they were written. A written variant has its tag first and then exactly the
fields of its kind, so every slot is filled by the field it is named for. Only the depth of the text limits
what can be read. -/
namespace ProgramDependence

/-! ### Words and lists -/

namespace Json

theorem word?_word (n : UInt64) : (Json.word n).word? = some n := by
  rw [Json.word, word?_ofNat n.toNat n.toNat_lt_size, UInt64.ofNat_toNat]

theorem word_writable (n : UInt64) : Writable (.word n) := fits_natCast n.toNat_lt_size

theorem texts_writable (strings : List String) : Writable (.texts strings) := by
  simp only [texts, Writable]
  induction strings with
  | nil => trivial
  | cons s strings ih => exact ⟨trivial, ih⟩

theorem list?_map {item? : Json → Option β} {toJson : β → Json} (reads : ∀ x, item? (toJson x) = some x)
    (xs : List β) : (Json.arr (xs.map toJson)).list? item? = some xs := by
  simp only [list?]
  induction xs with
  | nil => rfl
  | cons x xs ih => simp [reads, ih]

theorem writableItems_map {toJson : β → Json} (writable : ∀ x, Writable (toJson x)) (xs : List β) :
    WritableItems (xs.map toJson) := by
  induction xs with
  | nil => trivial
  | cons x xs ih => exact ⟨writable x, ih⟩

end Json

/-! ### Expressions -/

namespace Expr

theorem Kind.ofJson?_name (kind : Kind) : Kind.ofJson? (.str kind.name) = some kind := by
  cases kind <;> decide

theorem Kind.fieldNames_distinct (kind : Kind) : ("kind" :: kind.fieldNames).Nodup := by
  cases kind <;> decide

theorem spellEntries_eq (entries : List (String × Json)) :
    spellEntries entries = entries.map fun entry => (entry.1, spell entry.2) := by
  induction entries with
  | nil => rfl
  | cons entry entries ih => rw [spellEntries, ih, List.map_cons]

/-- What the fields of a kind spell when they stand in their order after its name. -/
theorem expr_written (kind : Kind) {entries : List (String × Json)}
    (keys : entries.map (·.1) = kind.fieldNames) :
    (spell (.obj (("kind", .str kind.name) :: entries))).expr =
      ofSlots? kind (entries.map fun entry => some (spell entry.2)) := by
  have spelled : (spellEntries entries).map (·.1) = kind.fieldNames := by
    rw [spellEntries_eq, List.map_map]
    exact keys
  have distinct : ("kind" :: (spellEntries entries).map (·.1)).Nodup :=
    spelled ▸ kind.fieldNames_distinct
  have absent := (List.nodup_cons.mp distinct).1
  simp only [spell, spellEntries, ofFields?, Json.Fields.tagged_named absent, Kind.ofJson?_name,
    ← spelled, Json.Fields.slots_named distinct, Option.bind_eq_bind, Option.bind_some]
  rw [spellEntries_eq, List.map_map]
  rfl

theorem text?_spell (s : String) : (spell (.str s)).text? = some s := rfl

theorem word?_spell (n : UInt64) : (spell (.word n)).word? = some n := Json.word?_word n

theorem texts?_spell (strings : List String) : (spell (.texts strings)).texts? = some strings := by
  have reads (s : String) : Json.text? (.str s) = some s := rfl
  exact Json.list?_map reads strings

theorem exprs_spell (items : List Json) :
    (spell (.arr items)).exprs = (spellItems items).mapM (·.expr) := rfl

theorem receiver?_null : Spelled.receiver? (some (spell .null)) = some none := rfl

/-- An expression is written as an object, never as `null`. -/
theorem receiver?_toJson (e : Expr) :
    Spelled.receiver? (some (spell e.toJson)) = (spell e.toJson).expr.map some := by
  have object : (spell e.toJson).isNull = false := by cases e <;> rfl
  simp only [Spelled.receiver?, object, Bool.false_eq_true, ↓reduceIte]

theorem ofSlots?_parameter {a b : Spelled} (index : a.word? = some n) (ty : b.text? = some t) :
    ofSlots? .parameter [some a, some b] = some (.parameter n t) := by
  simp [ofSlots?, index, ty]

mutual

theorem expr_spell (e : Expr) : (spell e.toJson).expr = some e := by
  match e with
  | .localVar name => exact (expr_written .localVar rfl).trans rfl
  | .constant ty text => exact (expr_written .constant rfl).trans rfl
  | .parameter index ty =>
    exact (expr_written .parameter rfl).trans
      (ofSlots?_parameter (word?_spell index) (text?_spell ty))
  | .receiver ty => exact (expr_written .receiver rfl).trans rfl
  | .caught ty => exact (expr_written .caught rfl).trans rfl
  | .staticField owner name ty => exact (expr_written .field rfl).trans rfl
  | .instanceField base owner name ty =>
    refine (expr_written .field rfl).trans ?_
    simp [ofSlots?, text?_spell, receiver?_toJson, expr_spell base]
  | .element base index ty =>
    refine (expr_written .element rfl).trans ?_
    simp [ofSlots?, text?_spell, expr_spell base, expr_spell index]
  | .binary op lhs rhs =>
    refine (expr_written .binary rfl).trans ?_
    simp [ofSlots?, text?_spell, expr_spell lhs, expr_spell rhs]
  | .negate operand =>
    refine (expr_written .negate rfl).trans ?_
    simp [ofSlots?, expr_spell operand]
  | .length operand =>
    refine (expr_written .length rfl).trans ?_
    simp [ofSlots?, expr_spell operand]
  | .cast ty operand =>
    refine (expr_written .cast rfl).trans ?_
    simp [ofSlots?, text?_spell, expr_spell operand]
  | .instanceOf ty operand =>
    refine (expr_written .instanceOf rfl).trans ?_
    simp [ofSlots?, text?_spell, expr_spell operand]
  | .create ty => exact (expr_written .create rfl).trans rfl
  | .createArray ty size =>
    refine (expr_written .createArray rfl).trans ?_
    simp [ofSlots?, text?_spell, expr_spell size]
  | .createGrid ty sizes =>
    refine (expr_written .createGrid rfl).trans ?_
    simp [ofSlots?, text?_spell, exprs_spell, exprs_spellItems sizes]
  | .staticCall owner method params returns args =>
    refine (expr_written .call rfl).trans ?_
    simp [ofSlots?, Json.orDefault, text?_spell, texts?_spell, exprs_spell, exprs_spellItems args,
      receiver?_null]
  | .virtualCall base owner method params returns args =>
    refine (expr_written .call rfl).trans ?_
    simp [ofSlots?, Json.orDefault, text?_spell, texts?_spell, exprs_spell, exprs_spellItems args,
      receiver?_toJson, expr_spell base]

theorem exprs_spellItems (es : List Expr) : (spellItems (toJsons es)).mapM (·.expr) = some es := by
  match es with
  | [] => rfl
  | e :: es => simp [toJsons, spellItems, expr_spell e, exprs_spellItems es]

end

theorem ofJson?_toJson (e : Expr) : ofJson? e.toJson = some e := expr_spell e

mutual

theorem toJson_writable (e : Expr) : Json.Writable e.toJson := by
  match e with
  | .localVar _ | .constant _ _ | .receiver _ | .caught _ | .staticField _ _ _ | .create _ =>
    simp [toJson, Json.Writable, Json.WritableEntries]
  | .parameter index _ => simp [toJson, Json.Writable, Json.WritableEntries, Json.word_writable]
  | .instanceField base _ _ _ =>
    simp [toJson, Json.Writable, Json.WritableEntries, toJson_writable base]
  | .element base index _ =>
    simp [toJson, Json.Writable, Json.WritableEntries, toJson_writable base, toJson_writable index]
  | .binary _ lhs rhs =>
    simp [toJson, Json.Writable, Json.WritableEntries, toJson_writable lhs, toJson_writable rhs]
  | .negate operand | .length operand | .cast _ operand | .instanceOf _ operand
  | .createArray _ operand =>
    simp [toJson, Json.Writable, Json.WritableEntries, toJson_writable operand]
  | .createGrid _ sizes =>
    simp [toJson, Json.Writable, Json.WritableEntries, toJsons_writable sizes]
  | .staticCall _ _ params _ args =>
    simp [toJson, Json.Writable, Json.WritableEntries, toJsons_writable args, Json.texts_writable]
  | .virtualCall base _ _ params _ args =>
    simp [toJson, Json.Writable, Json.WritableEntries, toJsons_writable args, Json.texts_writable,
      toJson_writable base]

theorem toJsons_writable (es : List Expr) : Json.WritableItems (toJsons es) := by
  match es with
  | [] => trivial
  | e :: es => exact ⟨toJson_writable e, toJsons_writable es⟩

end

end Expr

/-! ### Statements -/

namespace Stmt

theorem Kind.ofJson?_name (kind : Kind) : Kind.ofJson? (.str kind.name) = some kind := by
  cases kind <;> decide

theorem Kind.fieldNames_distinct (kind : Kind) : ("kind" :: kind.fieldNames).Nodup := by
  cases kind <;> decide

theorem ofJson?_written (kind : Kind) {entries : List (String × Json)}
    (keys : entries.map (·.1) = kind.fieldNames) :
    ofJson? (.obj (("kind", .str kind.name) :: entries)) =
      ofSlots? kind (entries.map fun entry => some entry.2) := by
  have distinct : ("kind" :: entries.map (·.1)).Nodup := keys ▸ kind.fieldNames_distinct
  have absent := (List.nodup_cons.mp distinct).1
  simp only [ofJson?, Json.fields?, Json.Fields.tagged_named absent, Kind.ofJson?_name, ← keys,
    Json.Fields.slots_named distinct, Option.bind_eq_bind, Option.bind_some]

theorem result?_toJson (e : Expr) : result? e.toJson = some (some e) := by
  have object : result? e.toJson = (Expr.ofJson? e.toJson).map some := by cases e <;> rfl
  rw [object, Expr.ofJson?_toJson, Option.map_some]

theorem ofSlots?_branch {a b : Json} (condition : Expr.ofJson? a = some e) (target : b.word? = some n) :
    ofSlots? .branch [some a, some b] = some (.branch e n) := by
  simp [ofSlots?, condition, target]

theorem ofSlots?_goto {a : Json} (target : a.word? = some n) :
    ofSlots? .goto [some a] = some (.goto n) := by
  simp [ofSlots?, target]

theorem ofSlots?_switch {a b c : Json} (key : Expr.ofJson? a = some e)
    (targets : b.list? Json.word? = some ns) (fallback : c.word? = some n) :
    ofSlots? .switch [some a, some b, some c] = some (.switch e ns n) := by
  simp [ofSlots?, key, targets, fallback]

theorem ofJson?_toJson (s : Stmt) : ofJson? s.toJson = some s := by
  cases s with
  | identity name value =>
    refine (ofJson?_written .identity rfl).trans ?_
    simp [ofSlots?, Json.text?, Expr.ofJson?_toJson]
  | assign lhs rhs =>
    refine (ofJson?_written .assign rfl).trans ?_
    simp [ofSlots?, Expr.ofJson?_toJson]
  | branch condition target =>
    exact (ofJson?_written .branch rfl).trans
      (ofSlots?_branch condition.ofJson?_toJson (Json.word?_word target))
  | goto target =>
    exact (ofJson?_written .goto rfl).trans (ofSlots?_goto (Json.word?_word target))
  | switch key targets fallback =>
    exact (ofJson?_written .switch rfl).trans (ofSlots?_switch key.ofJson?_toJson
      (Json.list?_map Json.word?_word targets) (Json.word?_word fallback))
  | call expr =>
    refine (ofJson?_written .call rfl).trans ?_
    simp [ofSlots?, Expr.ofJson?_toJson]
  | ret value =>
    cases value with
    | none => exact (ofJson?_written .ret rfl).trans rfl
    | some value =>
      refine (ofJson?_written .ret rfl).trans ?_
      simp [ofSlots?, Json.orDefault, result?_toJson]
  | throw value =>
    refine (ofJson?_written .throw rfl).trans ?_
    simp [ofSlots?, Expr.ofJson?_toJson]
  | nop => exact (ofJson?_written .nop rfl).trans rfl

theorem toJson_writable (s : Stmt) : Json.Writable s.toJson := by
  cases s with
  | ret value =>
    cases value <;> simp [toJson, Json.Writable, Json.WritableEntries, Expr.toJson_writable]
  | switch key targets fallback =>
    simp [toJson, Json.Writable, Json.WritableEntries, Expr.toJson_writable, Json.word_writable,
      Json.writableItems_map Json.word_writable]
  | _ => simp [toJson, Json.Writable, Json.WritableEntries, Expr.toJson_writable, Json.word_writable]

theorem read?_encode (s : Stmt) (shallow : s.toJson.nesting < 128) :
    Json.read? s.encode = some s.toJson :=
  Json.read?_write s.toJson s.toJson_writable (Nat.le_of_lt_succ shallow)

/-- A statement whose text nests less than 128 deep is read back from it, and no other such statement has
the same text. -/
theorem encode_reads_back (s : Stmt) (shallow : s.toJson.nesting < 128) :
    (Json.read? s.encode).bind ofJson? = some s ∧
      ∀ t : Stmt, t.toJson.nesting < 128 → t.encode = s.encode → t = s := by
  have back (t : Stmt) (shallow : t.toJson.nesting < 128) :
      (Json.read? t.encode).bind ofJson? = some t := by
    rw [read?_encode t shallow, Option.bind_some, ofJson?_toJson]
  refine ⟨back s shallow, fun t shallow' same => ?_⟩
  have decoded := back t shallow'
  rw [same, back s shallow] at decoded
  exact (Option.some.inj decoded).symm

/-- A switch over a call without receiver, parameters and arguments: absent is written as `null`, and
nothing as an empty array. -/
def bareSwitch : Stmt :=
  .switch (.staticCall "p.C" "m\n\"\u0000é😀" [] "int" []) [0, 18446744073709551615] 3

theorem bareSwitch_reads_back :
    bareSwitch.toJson = .obj [("kind", .str "switch"),
      ("key", .obj [("kind", .str "invoke"), ("class", .str "p.C"),
        ("method", .str "m\n\"\u0000é😀"), ("params", .arr []), ("returns", .str "int"),
        ("base", .null), ("args", .arr [])]),
      ("targets", .arr [.word 0, .word 18446744073709551615]), ("default", .word 3)] ∧
    bareSwitch.toJson.nesting < 128 ∧ (Json.read? bareSwitch.encode).bind ofJson? = some bareSwitch ∧
      ∀ t : Stmt, t.toJson.nesting < 128 → t.encode = bareSwitch.encode → t = bareSwitch := by
  have shallow : bareSwitch.toJson.nesting < 128 := by decide
  exact ⟨rfl, shallow, encode_reads_back bareSwitch shallow⟩

end Stmt
end ProgramDependence
