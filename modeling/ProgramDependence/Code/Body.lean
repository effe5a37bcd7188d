import ProgramDependence.Code.Decode

/-! Method bodies: declared locals and instructions with their source positions. -/
namespace ProgramDependence

structure Span where
  startLine : Int64
  startColumn : Int64
  endLine : Int64
  endColumn : Int64
  deriving DecidableEq, Repr, Hashable

def Span.zero : Span := ⟨0, 0, 0, 0⟩

structure Instruction where
  stmt : Stmt
  span : Span := .zero

structure LocalDecl where
  name : String
  ty : String
  deriving DecidableEq, Repr

structure Body where
  locals : List LocalDecl
  code : List Instruction

def Body.size (b : Body) : Nat := b.code.length

open Json (orDefault)

namespace Span

def ofJson? (j : Json) : Option Span := do
  match ← (← j.fields?).slots ["start_line", "start_column", "end_line", "end_column"] with
  | [startLine, startColumn, endLine, endColumn] =>
    some ⟨← startLine.bind (·.signed?), ← startColumn.bind (·.signed?),
      ← endLine.bind (·.signed?), ← endColumn.bind (·.signed?)⟩
  | _ => none

end Span

namespace Instruction

def ofJson? (j : Json) : Option Instruction := do
  match ← (← j.fields?).slots ["stmt", "span"] with
  | [stmt, span] => some ⟨← stmt.bind Stmt.ofJson?, ← orDefault .zero Span.ofJson? span⟩
  | _ => none

end Instruction

namespace LocalDecl

def ofJson? (j : Json) : Option LocalDecl := do
  match ← (← j.fields?).slots ["name", "type"] with
  | [name, ty] => some ⟨← name.bind (·.text?), ← ty.bind (·.text?)⟩
  | _ => none

end LocalDecl

namespace Body

def ofJson? (j : Json) : Option Body := do
  match ← (← j.fields?).slots ["locals", "instructions"] with
  | [locals, code] =>
    some ⟨← orDefault [] (·.list? LocalDecl.ofJson?) locals,
      ← code.bind (·.list? Instruction.ofJson?)⟩
  | _ => none

end Body
end ProgramDependence
