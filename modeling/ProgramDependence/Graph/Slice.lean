import ProgramDependence.Flow.Digraph
import ProgramDependence.Graph.Basic

/-! Backward slices: a vertex, all that leads to it over edges of any tag, and the edges among
these. -/
namespace ProgramDependence.Graph

/-- Every edge in turn puts its source into the list of its target. -/
def parentsIn (edges : List Edge) : Lists :=
  edges.foldl (fun lists e => lists.push e.target e.source) fun _ => []

/-- A search under way: the vertices kept so far, ascending, and those of them whose sources are
still to be looked at, the next one first. -/
structure Visit where
  kept : List Nat
  stack : List Nat

namespace Visit

/-- A vertex is kept when it goes on the stack, so it goes there once. -/
def keep (v : Visit) (id : Nat) : Visit :=
  if v.kept.contains id then v else ⟨Ascending.insert id v.kept, id :: v.stack⟩

def step (parents : Lists) (v : Visit) : Visit :=
  match v.stack with
  | [] => v
  | id :: rest => (parents id).foldl keep ⟨v.kept, rest⟩

def run (parents : Lists) : Nat → Visit → Visit
  | 0, v => v
  | fuel + 1, v => if v.stack.isEmpty then v else run parents fuel (v.step parents)

end Visit

/-- The vertices from which a way over some edges leads to `id`, itself included, ascending. All
but the start are sources of edges, so no more than that many go on the stack. -/
def keptFrom (edges : List Edge) (id : Nat) : List Nat :=
  (Visit.run (parentsIn edges) (edges.length + 1) ⟨[id], [id]⟩).kept

def leadingTo (g : Graph) (id : Nat) : List Nat := keptFrom g.edges id

/-- An edge among the vertices kept, renumbered by their position. -/
def keepEdge (kept : List Nat) (e : Edge) : Option Edge := do
  some ⟨← kept.idxOf? e.source, ← kept.idxOf? e.target, e.tag⟩

/-- The part of the graph on some of its vertices, each made anew with the label it shows. -/
def restrict (g : Graph) (kept : List Nat) : Graph where
  vertices := kept.filterMap fun i => g.vertices[i]?.map fun v => ⟨v.view, v.label⟩
  edges := g.edges.filterMap (keepEdge kept)

def labelled (g : Graph) (label : String) : List Nat :=
  (List.range g.nodeCount).filter fun i => g.vertices[i]?.any fun v => v.label = label

/-- One slice for each vertex that shows `label`, in their order. -/
def slices (g : Graph) (label : String) : List Graph :=
  (g.labelled label).map fun i => g.restrict (g.leadingTo i)

/-! ### Vertex by vertex

Slices as they are cut from a graph of which nothing is known: a vertex may not be there, and so may the
end of an edge. -/

/-- A new graph of what some vertices show. -/
def pushKept (g : Graph) (kept : List Nat) : Except GraphError Graph :=
  kept.foldlM (fun part i => (g.view i).map part.push) .empty

/-- Adds the edges among the vertices kept. -/
def addKept (kept : List Nat) (part : Graph) (edges : List Edge) : Except GraphError Graph :=
  edges.foldlM (fun part e =>
    match keepEdge kept e with
    | none => .ok part
    | some e => part.addEdge e.source e.target e.tag) part

def sliceFrom (g : Graph) (id : Nat) : Except GraphError Graph :=
  match g.pushKept (g.leadingTo id) with
  | .error e => .error e
  | .ok part => addKept (g.leadingTo id) part g.edges

/-- The slices from all vertices that show `label`, or the first failure. -/
def slice (g : Graph) (label : String) : Except GraphError (List Graph) :=
  (g.labelled label).mapM g.sliceFrom

end ProgramDependence.Graph
