import Std.Data.HashMap.Basic
import Std.Data.TreeMap.Basic
import Std.Data.TreeSet.Basic
import ProgramDependence.Graph.Reader
import ProgramDependence.Graph.Slice

/-! A labelled multigraph as it is held. Nodes stand in a vector, with an index from identities to
the first node that was made with each; the labels that nodes show are kept once, in a table with an
index of its own; edges are kept by tag, then source, then target. An operation that can fail gives
back the store that it leaves, so what it changed before it failed is not lost. -/
namespace ProgramDependence

structure Store.Node where
  identity : Identity
  /-- The number of the label shown. -/
  label : Nat

abbrev Store.Targets := Std.TreeSet Nat instOrdNat.compare

abbrev Store.Sources := Std.TreeMap Nat Store.Targets instOrdNat.compare

abbrev Store.Tags := Std.TreeMap String Store.Sources String.instOrd.compare

structure Store where
  nodes : Array Store.Node := #[]
  index : Std.HashMap Identity Nat := ∅
  labels : Array String := #[]
  labelIndex : Std.HashMap String Nat := ∅
  links : Store.Tags := ∅

namespace Store

def empty : Store := {}

abbrev Action := EStateM GraphError Store

/-- The store after an operation on one that is not needed if it fails. -/
def Action.exec (a : Action α) (s : Store) : Except GraphError Store :=
  match a s with
  | .ok _ s => .ok s
  | .error e _ => .error e

/-! ### Nodes -/

def nodeCount (s : Store) : Nat := s.nodes.size

/-- The number of a label, which is put into the table if it is not there. -/
def internLabel (s : Store) (label : String) : Store × Nat :=
  match s.labelIndex[label]? with
  | some number => (s, number)
  | none => ({ s with
      labels := s.labels.push label
      labelIndex := s.labelIndex.insert label s.labels.size }, s.labels.size)

/-- A new node, whether or not there is one with that identity. The index keeps the first. -/
def push (s : Store) (identity : Identity) : Store × Nat :=
  let label := s.internLabel identity.label
  ({ label.1 with
    index := label.1.index.insertIfNew identity s.nodes.size
    nodes := label.1.nodes.push ⟨identity, label.2⟩ }, s.nodes.size)

/-- The node with an identity, made if there is none. -/
def addNode (s : Store) (identity : Identity) : Store × Nat :=
  match s.index[identity]? with
  | some id => (s, id)
  | none => s.push identity

/-- The label with a number. -/
def textOf (s : Store) (number : Nat) : String := s.labels.getD number ""

def label (s : Store) (id : Nat) : Except GraphError String :=
  match s.nodes[id]? with
  | some node => .ok (s.textOf node.label)
  | none => .error (.missing id)

/-- The identity of a node with the label that it shows. -/
def view (s : Store) (id : Nat) : Except GraphError Identity :=
  match s.nodes[id]? with
  | some node => .ok { node.identity with label := s.textOf node.label }
  | none => .error (.missing id)

/-- Changes the label that a node shows. The index keeps the identity it was made with. -/
def setLabel (id : Nat) (label : String) : Action Unit := fun s =>
  if s.nodeCount ≤ id then .error (.missing id) s
  else
    let shown := s.internLabel label
    .ok () { shown.1 with nodes := shown.1.nodes.modify id fun node => { node with label := shown.2 } }

/-! ### Edges -/

def Tags.link (links : Tags) (source target : Nat) (tag : String) : Tags :=
  links.alter tag fun sources =>
    some ((sources.getD ∅).alter source fun targets => some ((targets.getD ∅).insert target))

/-- All edges, by tag, then source, then target. -/
def Tags.edges (links : Tags) : List Edge :=
  links.toList.flatMap fun (tag, sources) =>
    sources.toList.flatMap fun (source, targets) =>
      targets.toList.map fun target => ⟨source, target, tag⟩

/-- Of two missing ends the source is reported. -/
def addEdge (source target : Nat) (tag : String) : Action Unit := fun s =>
  if s.nodeCount ≤ source then .error (.missing source) s
  else if s.nodeCount ≤ target then .error (.missing target) s
  else .ok () { s with links := s.links.link source target tag }

def hasEdge (s : Store) (source target : Nat) (tag : String) : Bool :=
  ((s.links[tag]?).bind fun sources => sources[source]?).any fun targets => targets.contains target

def edges (s : Store) : List Edge := s.links.edges

def edgeCount (s : Store) : Nat :=
  s.links.foldl (fun n _ sources => sources.foldl (fun n _ targets => n + targets.size) n) 0

/-! ### Absorbing a fragment -/

/-- A node that shows another label than it was made with shows it here too. -/
def showLabel (id : Nat) (made shown : String) : Action Unit :=
  if made = shown then pure () else setLabel id shown

def absorbNode (fragment : Store) (node : Node) : Action Nat := do
  let id ← modifyGet fun s => (s.addNode node.identity).swap
  showLabel id node.identity.label (fragment.textOf node.label)
  pure id

def absorbEdge (places : List Nat) (e : Edge) : Action Unit :=
  match places[e.source]?, places[e.target]? with
  | some source, some target => addEdge source target e.tag
  | none, _ => throw (.missing e.source)
  | some _, none => throw (.missing e.target)

/-- Copies every node and edge of a fragment, and returns the new number of each node. -/
def absorb (fragment : Store) : Action (List Nat) := do
  let places ← fragment.nodes.toList.mapM (absorbNode fragment)
  fragment.edges.forM (absorbEdge places)
  pure places

/-! ### Slices -/

def labelled (s : Store) (label : String) : List Nat :=
  (List.range s.nodeCount).filter fun id => (s.label id).toOption.any fun shown => shown = label

/-- A store of what nodes of another one show, and where each of them went. -/
abbrev Kept := Store × Std.HashMap Nat Nat

def keepNode (s : Store) (part : Kept) (id : Nat) : Except GraphError Kept :=
  (s.view id).map fun identity =>
    ((part.1.push identity).1, part.2.insert id (part.1.push identity).2)

def pushKept (s : Store) (kept : List Nat) : Except GraphError Kept :=
  kept.foldlM s.keepNode (.empty, ∅)

/-- An edge is kept if both its ends are. -/
def keepEdge (places : Std.HashMap Nat Nat) (part : Store) (e : Edge) : Except GraphError Store :=
  match places[e.source]?, places[e.target]? with
  | some source, some target => (addEdge source target e.tag).exec part
  | _, _ => .ok part

def sliceFrom (s : Store) (id : Nat) : Except GraphError Store :=
  match s.pushKept (Graph.keptFrom s.edges id) with
  | .error e => .error e
  | .ok (part, places) => s.edges.foldlM (keepEdge places) part

/-- The slices from all nodes that show `label`, or the first failure. -/
def slice (s : Store) (label : String) : Except GraphError (List Store) :=
  (s.labelled label).mapM s.sliceFrom

/-! ### Text -/

/-- The nodes with the labels that they show. -/
def vertices (s : Store) : List Vertex :=
  s.nodes.toList.map fun node => ⟨node.identity, s.textOf node.label⟩

def edgeLine (s : Store) (e : Edge) : Except GraphError (List Char) := do
  let source ← s.label e.source
  let target ← s.label e.target
  .ok (Graph.recordLine Graph.edgeKind (e.toJson source target))

def write (s : Store) : Except GraphError (List Char) := do
  let edges ← s.edges.mapM s.edgeLine
  .ok ((s.vertices.zipIdx.map fun (v, id) => Graph.vertexLine v id).flatten ++ edges.flatten)

def text (s : Store) : Except GraphError String := s.write.map String.ofList

/-- Pushes nodes whose ids must count up from the size of the store. -/
def pushRecords (s : Store) : List (Nat × VertexRecord) → Except Graph.ReadError Store
  | [] => .ok s
  | (line, v) :: rest =>
    if v.id = s.nodeCount then (s.push v.identity).1.pushRecords rest
    else .error (.malformed line (.wrongId v.id s.nodeCount))

def addRecords (s : Store) : List (Nat × Edge) → Except Graph.ReadError Store
  | [] => .ok s
  | (line, e) :: rest =>
    match (addEdge e.source e.target e.tag).exec s with
    | .error fault => .error (.malformed line (.badEnd fault))
    | .ok s => s.addRecords rest

def ofRecords (records : Graph.Records) : Except Graph.ReadError Store :=
  match pushRecords .empty (records.vertices.mergeSort Graph.byId) with
  | .error e => .error e
  | .ok s => s.addRecords records.edges

def ofLines (lines : List (Option (List Char))) : Except Graph.ReadError Store :=
  match Graph.readLines {} 1 lines with
  | .error e => .error e
  | .ok records => ofRecords records

def ofText (text : List Char) : Except Graph.ReadError Store := ofLines ((Text.lines text).map some)

def ofBytes (bytes : List UInt8) : Except Graph.ReadError Store :=
  ofLines ((Text.byteLines bytes).map fun line =>
    (String.fromUTF8? ⟨line.toArray⟩).map String.toList)

end Store
end ProgramDependence
