import ProgramDependence.Ascending
import ProgramDependence.Code.Body

/-! Labelled multigraphs. A vertex is known by the identity it was made with; the label it shows
may change later, its identity does not. Vertices are numbered in the order in which they came,
edges are kept by tag, then source, then target. -/
namespace ProgramDependence

structure Identity where
  label : String
  extra : String
  package : String
  className : String
  sourceFile : String
  /-- Signature of the enclosing method. -/
  method : String
  kind : String
  span : Span
  deriving DecidableEq, Repr, Hashable

structure Vertex where
  identity : Identity
  /-- The label shown. -/
  label : String
  deriving DecidableEq, Repr

/-- The identity with the label that the vertex shows. -/
def Vertex.view (v : Vertex) : Identity := { v.identity with label := v.label }

structure Edge where
  source : Nat
  target : Nat
  tag : String
  deriving DecidableEq, Repr

/-- Edges are ordered by tag, then source, then target. -/
def Edge.Before (a b : Edge) : Prop :=
  a.tag < b.tag ∨ (a.tag = b.tag ∧
    (a.source < b.source ∨ (a.source = b.source ∧ a.target < b.target)))

instance : LT Edge := ⟨Edge.Before⟩

instance : DecidableLT Edge := fun a b => by
  change Decidable (Edge.Before a b)
  unfold Edge.Before
  infer_instance

structure Graph where
  vertices : List Vertex
  edges : List Edge
  deriving DecidableEq, Repr

inductive GraphError where
  | missing (id : Nat)
  deriving DecidableEq, Repr

def GraphError.message : GraphError → String
  | .missing id => s!"node {id} does not exist"

namespace Graph

def empty : Graph := ⟨[], []⟩

def nodeCount (g : Graph) : Nat := g.vertices.length

def edgeCount (g : Graph) : Nat := g.edges.length

/-- The first vertex made with an identity. -/
def idOf? (g : Graph) (identity : Identity) : Option Nat :=
  g.vertices.findIdx? fun v => v.identity = identity

/-- A new vertex, whether or not there is one with that identity. -/
def push (g : Graph) (identity : Identity) : Graph :=
  { g with vertices := g.vertices ++ [⟨identity, identity.label⟩] }

/-- The vertex with an identity, made if there is none. -/
def intern (g : Graph) (identity : Identity) : Graph × Nat :=
  match g.idOf? identity with
  | some id => (g, id)
  | none => (g.push identity, g.nodeCount)

def vertex (g : Graph) (id : Nat) : Except GraphError Vertex :=
  match g.vertices[id]? with
  | some v => .ok v
  | none => .error (.missing id)

def label (g : Graph) (id : Nat) : Except GraphError String := (g.vertex id).map (·.label)

def view (g : Graph) (id : Nat) : Except GraphError Identity := (g.vertex id).map (·.view)

/-- Changes the label that a vertex shows. -/
def relabel (g : Graph) (id : Nat) (label : String) : Except GraphError Graph :=
  match g.vertices[id]? with
  | some v => .ok { g with vertices := g.vertices.set id { v with label := label } }
  | none => .error (.missing id)

/-- Adding an edge that is there changes nothing. Of two missing ends the source is reported. -/
def addEdge (g : Graph) (source target : Nat) (tag : String) : Except GraphError Graph :=
  if g.nodeCount ≤ source then .error (.missing source)
  else if g.nodeCount ≤ target then .error (.missing target)
  else .ok { g with edges := Ascending.insert ⟨source, target, tag⟩ g.edges }

def hasEdge (g : Graph) (source target : Nat) (tag : String) : Bool :=
  g.edges.contains ⟨source, target, tag⟩

end Graph
end ProgramDependence
