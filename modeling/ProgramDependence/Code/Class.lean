import ProgramDependence.Code.Body
import ProgramDependence.Json.Reader

/-! Classes and their methods. A method's body stays JSON until the method is looked at, so a
bad body spoils its own method only. -/
namespace ProgramDependence

structure Method where
  name : String
  signature : String
  startLine : Int64 := 0
  startColumn : Int64 := 0
  body : Option Json := none

structure Class where
  package : String
  name : String
  sourceFile : String := "unknown"
  methods : List Method := []

open Json (orDefault)

namespace Method

/-- Any JSON may stand for a body; `null` means that there is none. -/
def rawBody? : Json → Option (Option Json)
  | .null => some none
  | j => some (some j)

def ofJson? (j : Json) : Option Method := do
  match ← (← j.fields?).slotsOnce
      ["name", "signature", "start_line", "start_column", "body"] with
  | [name, signature, startLine, startColumn, body] =>
    some {
      name := ← name.bind (·.text?)
      signature := ← signature.bind (·.text?)
      startLine := ← orDefault 0 (·.signed?) startLine
      startColumn := ← orDefault 0 (·.signed?) startColumn
      body := ← orDefault none rawBody? body }
  | _ => none

end Method

namespace Class

def ofJson? (j : Json) : Option Class := do
  match ← (← j.fields?).slotsOnce ["package_name", "name", "source_file", "methods"] with
  | [package, name, sourceFile, methods] =>
    some {
      package := ← package.bind (·.text?)
      name := ← name.bind (·.text?)
      sourceFile := ← orDefault "unknown" (·.text?) sourceFile
      methods := ← orDefault [] (·.list? Method.ofJson?) methods }
  | _ => none

/-- A document holds an array of classes or a single class. An array that is both, such as the
empty one, holds classes. -/
def ofDocument? (j : Json) : Option (List Class) :=
  match j.list? ofJson? with
  | some classes => some classes
  | none => (ofJson? j).map fun c => [c]

/-- The classes of a document given by its bytes, which must be UTF-8. -/
def ofBytes? (bytes : ByteArray) : Option (List Class) := do
  let text ← String.fromUTF8? bytes
  ofDocument? (← Json.read? text.toList)

end Class
end ProgramDependence
