import ProgramDependence.Json.Value

/-! A record is written either as an object, by field name, or as an array of its fields in
their fixed order. Both come down to one slot per field. -/
namespace ProgramDependence.Json

inductive Fields (α : Type) where
  | named (entries : List (String × α))
  | listed (items : List α)

def fields? : Json → Option (Fields Json)
  | .obj entries => some (.named entries)
  | .arr items => some (.listed items)
  | _ => none

namespace Fields

/-- The last entry under a key. -/
def last? (entries : List (String × α)) (key : String) : Option α :=
  (entries.reverse.find? fun entry => entry.1 = key).map (·.2)

/-- The fields in order, an empty slot for each that is absent. In an array only trailing
fields can be absent, and there may be none beyond the last. -/
def slots (names : List String) : Fields α → Option (List (Option α))
  | .named entries => some (names.map (last? entries))
  | .listed items =>
    if items.length ≤ names.length then
      some (items.map some ++ List.replicate (names.length - items.length) none)
    else none

/-- The slots of a record none of whose fields is given twice. -/
def slotsOnce (names : List String) : Fields α → Option (List (Option α))
  | .named entries =>
    if names.all fun name => (entries.filter fun entry => entry.1 = name).length ≤ 1 then
      (Fields.named entries).slots names
    else none
  | .listed items => (Fields.listed items).slots names

/-- A variant's tag and its other fields: the tag is the entry `kind` of an object and the first
item of an array. -/
def tagged : Fields α → Option (α × Fields α)
  | .named entries => (last? entries "kind").map fun tag => (tag, .named entries)
  | .listed [] => none
  | .listed (tag :: rest) => some (tag, .listed rest)

end Fields

/-- An absent field has a default; a present one must decode. -/
def orDefault (fallback : β) (decode : α → Option β) : Option α → Option β
  | none => some fallback
  | some x => decode x

end ProgramDependence.Json
