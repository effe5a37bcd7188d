import ProgramDependence.Graph.Writer
import ProgramDependence.Text.Blank
import ProgramDependence.Text.Lines

/-! Reading the text form. Records may come in any order; the vertex ids must be exactly the
numbers below their count. Every line is read before any id is looked at. -/
namespace ProgramDependence.Graph

/-- What is wrong with a line. -/
inductive Fault where
  | noKind
  | unknownKind (kind : String)
  | badRecord
  | wrongId (found expected : Nat)
  | badEnd (e : GraphError)
  deriving DecidableEq, Repr

def Fault.message : Fault → String
  | .noKind => "missing record kind"
  | .unknownKind kind => s!"unknown record kind `{kind}`"
  | .badRecord => "malformed record"
  | .wrongId found expected => s!"vertex id {found} where {expected} was expected"
  | .badEnd e => e.message

inductive ReadError where
  | notUtf8
  | malformed (line : Nat) (fault : Fault)
  deriving DecidableEq, Repr

def ReadError.message : ReadError → String
  | .notUtf8 => "stream did not contain valid UTF-8"
  | .malformed line fault => s!"line {line}: {fault.message}"

structure Records where
  vertices : List (Nat × VertexRecord) := []
  edges : List (Nat × Edge) := []

/-- Reads line `number` on top of the records before it. A blank line holds none. -/
def readLine (records : Records) (number : Nat) (line : List Char) : Except ReadError Records :=
  if Text.isBlankLine line then .ok records
  else match Text.cutAt '\t' line with
    | none => .error (.malformed number .noKind)
    | some (kind, payload) =>
      if kind = vertexKind then
        match VertexRecord.ofText? payload with
        | none => .error (.malformed number .badRecord)
        | some v => .ok { records with vertices := records.vertices ++ [(number, v)] }
      else if kind = edgeKind then
        match Edge.ofText? payload with
        | none => .error (.malformed number .badRecord)
        | some e => .ok { records with edges := records.edges ++ [(number, e)] }
      else .error (.malformed number (.unknownKind (String.ofList kind)))

/-- Reads the lines from `number` on; one that is not text ends the reading. -/
def readLines (records : Records) (number : Nat) : List (Option (List Char)) →
    Except ReadError Records
  | [] => .ok records
  | none :: _ => .error .notUtf8
  | some line :: rest =>
    match readLine records number line with
    | .error e => .error e
    | .ok records => readLines records (number + 1) rest

/-- Records of one id keep the order of their lines. -/
def byId (a b : Nat × VertexRecord) : Bool := a.2.id ≤ b.2.id

/-- Pushes vertices whose ids must count up from the size of the graph. -/
def pushRecords (g : Graph) : List (Nat × VertexRecord) → Except ReadError Graph
  | [] => .ok g
  | (line, v) :: rest =>
    if v.id = g.nodeCount then pushRecords (g.push v.identity) rest
    else .error (.malformed line (.wrongId v.id g.nodeCount))

def addRecords (g : Graph) : List (Nat × Edge) → Except ReadError Graph
  | [] => .ok g
  | (line, e) :: rest =>
    match g.addEdge e.source e.target e.tag with
    | .error fault => .error (.malformed line (.badEnd fault))
    | .ok g => addRecords g rest

def ofRecords (records : Records) : Except ReadError Graph :=
  match pushRecords .empty (records.vertices.mergeSort byId) with
  | .error e => .error e
  | .ok g => addRecords g records.edges

def ofLines (lines : List (Option (List Char))) : Except ReadError Graph :=
  match readLines {} 1 lines with
  | .error e => .error e
  | .ok records => ofRecords records

def ofText (text : List Char) : Except ReadError Graph := ofLines ((Text.lines text).map some)

/-- Bytes are cut into lines first, so a line that is not UTF-8 does not hide a fault in an
earlier one. -/
def ofBytes (bytes : List UInt8) : Except ReadError Graph :=
  ofLines ((Text.byteLines bytes).map fun line =>
    (String.fromUTF8? ⟨line.toArray⟩).map String.toList)

end ProgramDependence.Graph
