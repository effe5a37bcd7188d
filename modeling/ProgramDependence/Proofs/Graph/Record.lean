import ProgramDependence.Graph.Record
import ProgramDependence.Proofs.Json.RoundTrip

/-! The records of vertices and edges read back as they were written. -/
namespace ProgramDependence

open Json (Reads Fits Writable)

theorem Json.word?_ofNat (n : Nat) (bound : n < UInt64.size) :
    Json.word? (.int n) = some (UInt64.ofNat n) := by
  simp only [Json.word?, Int.natCast_nonneg, true_and]
  rw [if_pos (by exact_mod_cast bound), Int.toNat_natCast]

theorem Json.signed?_toInt (n : Int64) : Json.signed? (.int n.toInt) = some n := by
  have low := n.le_toInt
  have high := n.toInt_lt
  simp only [Json.signed?]
  rw [if_pos ⟨by simpa using low, by simpa using high⟩, Int64.ofInt_toInt]

theorem fits_toInt (n : Int64) : Fits n.toInt := by
  have low := n.le_toInt
  have high := n.toInt_lt
  simp only [Fits, UInt64.size]
  omega

theorem fits_natCast (bound : n < UInt64.size) : Fits n := by
  simp only [Fits, UInt64.size] at *
  omega

namespace VertexRecord

theorem toJson_writable (r : VertexRecord) (bound : r.id < UInt64.size) : Writable r.toJson := by
  simp only [toJson, Identity.entries, Writable, Json.WritableEntries, fits_toInt, and_self,
    fits_natCast bound]

theorem toJson_nesting (r : VertexRecord) : r.toJson.nesting ≤ Json.depthLimit := by
  simp [toJson, Identity.entries, Json.nesting, Json.nestingEntries, Json.depthLimit]

theorem ofEntries?_of_slots {a : Json}
    (slots : (Json.Fields.named entries).slotsOnce fieldNames = some (some a :: fields))
    (id : a.word? = some w) (identity : Identity.ofSlots? fields = some i) :
    ofEntries? entries = some ⟨w.toNat, i⟩ := by
  simp [ofEntries?, slots, id, identity]

theorem ofEntries?_toJson (r : VertexRecord) (bound : r.id < UInt64.size) :
    ofEntries? (("id", .int r.id) :: r.identity.entries) = some r := by
  have once : (Json.Fields.named (("id", Json.int r.id) :: r.identity.entries)).slotsOnce fieldNames =
      some (some (.int r.id) :: r.identity.entries.map fun e => some e.2) := by
    simp [Json.Fields.slotsOnce, Json.Fields.slots, fieldNames, Identity.entries, Json.Fields.last?]
  have identity : Identity.ofSlots? (r.identity.entries.map fun e => some e.2) = some r.identity := by
    simp [Identity.entries, Identity.ofSlots?, Json.text?, Json.signed?_toInt]
  rw [ofEntries?_of_slots once (Json.word?_ofNat r.id bound) identity,
    UInt64.toNat_ofNat_of_lt' bound]

theorem ofText?_write (r : VertexRecord) (bound : r.id < UInt64.size) :
    ofText? r.toJson.write = some r := by
  have read := Json.read?_write r.toJson (r.toJson_writable bound) r.toJson_nesting
  rw [ofText?, read]
  exact ofEntries?_toJson r bound

end VertexRecord

namespace Edge

/-- The reader of one entry of an edge: tolerant unless the entry is wanted. -/
def entryReader (key : String) : Json.Reader Json := fun cs =>
  if fieldNames.contains key then Json.value true (Json.depthLimit - 1) cs
  else Json.value false cs.length cs

theorem entryReader_wanted (key : String) (wanted : fieldNames.contains key = true) (j : Json)
    (writable : Writable j) (flat : j.nesting = 0) : Reads (entryReader key) j.write j := by
  intro rest stops
  simp only [entryReader, wanted, ↓reduceIte]
  exact Json.value_write j _ writable (by rw [flat]; exact Nat.zero_le _) rest stops

theorem entryReader_passed (key : String) (passed : fieldNames.contains key = false) (s : String) :
    ∃ j, Reads (entryReader key) (Json.write (.str s)) j := by
  -- what is read does not depend on the text that follows, only on the string
  refine ⟨.str (String.ofList ((s.toList.map Json.pieceOf).map fun _ => '?')), fun rest _ => ?_⟩
  simp only [entryReader, passed, Bool.false_eq_true, ↓reduceIte, Json.write, Json.writeString,
    List.cons_append, List.append_assoc, List.nil_append, Json.value_string, Json.stringTail,
    Json.pieces_escaped, Option.map_some]

theorem selectedEntries_toJson (e : Edge) (sourceLabel targetLabel : String)
    (source : e.source < UInt64.size) (target : e.target < UInt64.size) :
    Json.whole (Json.selectedEntries fieldNames) (e.toJson sourceLabel targetLabel).write =
      some [("src", .int e.source), ("targ", .int e.target), ("label", .str e.tag)] := by
  obtain ⟨passedSource, readSource⟩ :=
    entryReader_passed "src_label" (by decide) sourceLabel
  obtain ⟨passedTarget, readTarget⟩ :=
    entryReader_passed "targ_label" (by decide) targetLabel
  have first := Json.entry_reads (entryReader_wanted "src" (by decide) (.int e.source)
    (fits_natCast source) rfl)
  have others : List.Forall₂ (Reads (Json.entry true entryReader)) _ _ :=
    .cons (Json.entry_reads (entryReader_wanted "targ" (by decide) (.int e.target)
        (fits_natCast target) rfl))
      (.cons (Json.entry_reads (entryReader_wanted "label" (by decide) (.str e.tag)
          trivial rfl))
        (.cons (Json.entry_reads readSource) (.cons (Json.entry_reads readTarget) .nil)))
  have all := Json.sequenceOrEmpty_reads (.inr rfl) (Json.entryText_opens "src" _) first others []
  have text := Json.write_obj ("src", .int e.source) [("targ", .int e.target), ("label", .str e.tag),
    ("src_label", .str sourceLabel), ("targ_label", .str targetLabel)] []
  rw [List.append_nil] at text
  have read : Json.selectedEntries fieldNames (e.toJson sourceLabel targetLabel).write =
      some ([("src", .int e.source), ("targ", .int e.target), ("label", .str e.tag)], []) := by
    rw [toJson, text, Json.selectedEntries, Json.skipSpace_cons (by decide)]
    simp only [↓reduceIte]
    change (Json.sequenceOrEmpty '\x7d' (Json.entry true entryReader) _).map _ = _
    simp only [List.map_cons, List.map_nil] at all ⊢
    rw [all]
    simp [fieldNames]
  simp [Json.whole, read, Json.skipSpace]

theorem ofFields?_of_slots {fields : Json.Fields Json} {a b c : Json} {name : String}
    (slots : fields.slotsOnce fieldNames = some [some a, some b, some c])
    (source : a.word? = some s) (target : b.word? = some t) (text : c.text? = some name) :
    ofFields? fields = some ⟨s.toNat, t.toNat, name⟩ := by
  simp [ofFields?, slots, source, target, text]

theorem ofText?_write (e : Edge) (sourceLabel targetLabel : String)
    (source : e.source < UInt64.size) (target : e.target < UInt64.size) :
    ofText? (e.toJson sourceLabel targetLabel).write = some e := by
  rw [ofText?, selectedEntries_toJson e sourceLabel targetLabel source target]
  have once : (Json.Fields.named [("src", Json.int e.source), ("targ", .int e.target),
      ("label", .str e.tag)]).slotsOnce fieldNames =
      some [some (.int e.source), some (.int e.target), some (.str e.tag)] := by
    simp [Json.Fields.slotsOnce, Json.Fields.slots, fieldNames, Json.Fields.last?]
  have read := ofFields?_of_slots once (Json.word?_ofNat e.source source)
    (Json.word?_ofNat e.target target) rfl
  rw [UInt64.toNat_ofNat_of_lt' source, UInt64.toNat_ofNat_of_lt' target] at read
  exact read

end Edge
end ProgramDependence
