import ProgramDependence.Graph.Reader

/-! Checking that a text says exactly what a graph holds. -/
namespace ProgramDependence.Graph

inductive VerifyError where
  | unreadable (e : ReadError)
  | nodeCount (found expected : Nat)
  | node (id : Nat)
  | edges
  | unwritable (e : GraphError)
  | text
  deriving DecidableEq, Repr

def VerifyError.message : VerifyError → String
  | .unreadable _ => "failed to re-read serialized graph"
  | .nodeCount found expected => s!"re-read graph has {found} nodes, expected {expected}"
  | .node id => s!"node {id} differs after re-reading"
  | .edges => "edges differ after re-reading"
  | .unwritable e => e.message
  | .text => "graph does not serialize to the same text twice"

/-- The first vertex that two graphs show differently. -/
def firstDifference? (g h : Graph) : Option Nat :=
  (List.range g.nodeCount).find? fun i =>
    g.vertices[i]?.map Vertex.view ≠ h.vertices[i]?.map Vertex.view

/-- Whether `text` reads back to the vertices and edges of `g` and is what those are written
as. -/
def verify (g : Graph) (text : List Char) : Except VerifyError Unit :=
  match ofText text with
  | .error e => .error (.unreadable e)
  | .ok h =>
    if h.nodeCount ≠ g.nodeCount then .error (.nodeCount h.nodeCount g.nodeCount)
    else match firstDifference? g h with
      | some id => .error (.node id)
      | none =>
        if h.edges ≠ g.edges then .error .edges
        else match h.write with
          | .error e => .error (.unwritable e)
          | .ok again => if again = text then .ok () else .error .text

end ProgramDependence.Graph
