import ProgramDependence.Graph.Record
import ProgramDependence.Json.Writer

/-! The text form of a graph: a line per vertex in order, then a line per edge in order. A line
is the kind of the record, a tab and the record. -/
namespace ProgramDependence.Graph

def vertexKind : List Char := ['v', 'e', 'r', 't', 'e', 'x']

def edgeKind : List Char := ['e', 'd', 'g', 'e']

def recordLine (kind : List Char) (record : Json) : List Char :=
  kind ++ '\t' :: record.write ++ ['\n']

def vertexLine (v : Vertex) (id : Nat) : List Char :=
  recordLine vertexKind (VertexRecord.toJson ⟨id, v.view⟩)

def edgeLine (g : Graph) (e : Edge) : Except GraphError (List Char) := do
  let source ← g.label e.source
  let target ← g.label e.target
  .ok (recordLine edgeKind (e.toJson source target))

/-- The text form. It fails only if an edge ends at a vertex that is not there. -/
def write (g : Graph) : Except GraphError (List Char) := do
  let edges ← g.edges.mapM g.edgeLine
  .ok ((g.vertices.zipIdx.map fun (v, id) => vertexLine v id).flatten ++ edges.flatten)

def text (g : Graph) : Except GraphError String := g.write.map String.ofList

/-! ### Line by line -/

/-- The lines of edges up to the first of which an end is missing. -/
def edgeLines (g : Graph) : List Edge → List Char × Except GraphError Unit
  | [] => ([], .ok ())
  | e :: rest =>
    match g.edgeLine e with
    | .error fault => ([], .error fault)
    | .ok line =>
      let (text, result) := g.edgeLines rest
      (line ++ text, result)

/-- What is written by the time the text form is complete or cannot be completed. -/
def stream (g : Graph) : List Char × Except GraphError Unit :=
  let (text, result) := g.edgeLines g.edges
  ((g.vertices.zipIdx.map fun (v, id) => vertexLine v id).flatten ++ text, result)

end ProgramDependence.Graph
