import ProgramDependence.Graph.Basic
import ProgramDependence.Json.Fields
import ProgramDependence.Json.Reader

/-! The records of the text form: one JSON object per vertex and per edge. An edge record also
shows the labels of its ends, which reading skips. -/
namespace ProgramDependence

namespace Identity

def entries (i : Identity) : List (String × Json) := [
  ("label", .str i.label), ("extra", .str i.extra), ("package_name", .str i.package),
  ("class_name", .str i.className), ("source_file", .str i.sourceFile),
  ("method_name", .str i.method), ("type", .str i.kind),
  ("start_line", .int i.span.startLine.toInt), ("start_column", .int i.span.startColumn.toInt),
  ("end_line", .int i.span.endLine.toInt), ("end_column", .int i.span.endColumn.toInt)]

def ofSlots? : List (Option Json) → Option Identity
  | [label, extra, package, className, sourceFile, method, kind, startLine, startColumn, endLine,
      endColumn] => do
    some {
      label := ← label.bind (·.text?)
      extra := ← extra.bind (·.text?)
      package := ← package.bind (·.text?)
      className := ← className.bind (·.text?)
      sourceFile := ← sourceFile.bind (·.text?)
      method := ← method.bind (·.text?)
      kind := ← kind.bind (·.text?)
      span := {
        startLine := ← startLine.bind (·.signed?)
        startColumn := ← startColumn.bind (·.signed?)
        endLine := ← endLine.bind (·.signed?)
        endColumn := ← endColumn.bind (·.signed?) } }
  | _ => none

end Identity

structure VertexRecord where
  id : Nat
  identity : Identity
  deriving DecidableEq, Repr

namespace VertexRecord

def fieldNames : List String := [
  "id", "label", "extra", "package_name", "class_name", "source_file", "method_name", "type",
  "start_line", "start_column", "end_line", "end_column"]

def toJson (r : VertexRecord) : Json := .obj (("id", .int r.id) :: r.identity.entries)

def ofEntries? (entries : List (String × Json)) : Option VertexRecord := do
  match ← (Json.Fields.named entries).slotsOnce fieldNames with
  | id :: fields => some ⟨(← id.bind (·.word?)).toNat, ← Identity.ofSlots? fields⟩
  | [] => none

/-- A vertex is always written as an object. -/
def ofText? (text : List Char) : Option VertexRecord :=
  match Json.read? text with
  | some (.obj entries) => ofEntries? entries
  | _ => none

end VertexRecord

namespace Edge

def toJson (e : Edge) (sourceLabel targetLabel : String) : Json := .obj [
  ("src", .int e.source), ("targ", .int e.target), ("label", .str e.tag),
  ("src_label", .str sourceLabel), ("targ_label", .str targetLabel)]

def fieldNames : List String := ["src", "targ", "label"]

def ofFields? (fields : Json.Fields Json) : Option Edge := do
  match ← fields.slotsOnce fieldNames with
  | [source, target, tag] =>
    some ⟨(← source.bind (·.word?)).toNat, (← target.bind (·.word?)).toNat, ← tag.bind (·.text?)⟩
  | _ => none

/-- An edge may be written as an array too. In an object only the fields of an edge are looked
at; nothing else in it has to make sense. -/
def ofText? (text : List Char) : Option Edge :=
  match Json.whole (Json.selectedEntries fieldNames) text with
  | some entries => ofFields? (.named entries)
  | none =>
    match Json.read? text with
    | some (.arr items) => ofFields? (.listed items)
    | _ => none

end Edge
end ProgramDependence
