import ProgramDependence.Graph.Basic

/-! One graph absorbs another. Vertices are matched by identity. -/
namespace ProgramDependence.Graph

/-- The graph so far, and the number in it of each vertex absorbed so far. -/
abbrev Merged := Graph × List Nat

/-- A vertex that shows another label than it was made with shows it here too. -/
def absorbVertex (m : Merged) (v : Vertex) : Except GraphError Merged :=
  let (g, id) := m.1.intern v.identity
  if v.identity.label = v.label then .ok (g, m.2 ++ [id])
  else (g.relabel id v.label).map fun g => (g, m.2 ++ [id])

def absorbEdge (places : List Nat) (g : Graph) (e : Edge) : Except GraphError Graph :=
  match places[e.source]?, places[e.target]? with
  | some source, some target => g.addEdge source target e.tag
  | none, _ => .error (.missing e.source)
  | some _, none => .error (.missing e.target)

/-- All vertices and edges of `f` in `g`, and where each vertex of `f` went. -/
def absorb (g f : Graph) : Except GraphError Merged := do
  let (g, places) ← f.vertices.foldlM absorbVertex (g, [])
  let g ← f.edges.foldlM (absorbEdge places) g
  .ok (g, places)

end ProgramDependence.Graph
