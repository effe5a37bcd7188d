import ProgramDependence.Method.Build
import ProgramDependence.Proofs.Graph.Shows

/-! What a method draws, by identity: its nodes in the order in which they are asked for, and its
links in the order in which they are added. -/
namespace ProgramDependence

/-- The data dependences that got a tag. -/
def arcsOf (found : List (Except Untagged Arc)) : List Arc := found.filterMap fun x => x.toOption

def untaggedOf (found : List (Except Untagged Arc)) : List Untagged :=
  found.filterMap fun x =>
    match x with
    | .error e => some e
    | .ok _ => none

namespace Frame

/-- The nodes of the blocks. -/
def nodes (f : Frame) : List Identity := f.blocks.map f.blockNode

/-- The node of the block with a number. -/
def node (f : Frame) (index : Nat) : Identity := f.nodes.getD index f.entry

def identityOf (f : Frame) : End → Identity
  | .entry => f.entry
  | .block index => f.node index

def linkOf (f : Frame) (arc : Arc) : Link := ⟨f.identityOf arc.source, f.identityOf arc.target, arc.tag⟩

theorem node_of_block {f : Frame} {k : Nat} {b : Block} (there : f.blocks[k]? = some b) :
    f.node k = f.blockNode b := by
  simp [node, nodes, there]

/-! ### Nodes -/

/-- A block followed by its constants. -/
def nodesOf (f : Frame) (b : Block) : List Identity := f.blockNode b :: (f.constantsIn b).map (·.1)

/-- The entry, then every block followed by its constants. -/
def allNodes (f : Frame) : List Identity := f.entry :: f.blocks.flatMap f.nodesOf

/-! ### Links -/

def constantLinks (f : Frame) (b : Block) : List Link :=
  (f.constantsIn b).flatMap fun (constant, tag) =>
    [⟨f.entry, constant, controlTag⟩, ⟨constant, f.blockNode b, tag⟩]

/-- The links of the constants of a whole method. -/
def allConstantLinks (f : Frame) : List Link := f.blocks.flatMap f.constantLinks

def flowLinks (f : Frame) : List Link := f.flowArcs.map f.linkOf

/-- The control dependences between blocks. -/
def drawnControls (f : Frame) : List Link :=
  match Frontiers.compute f.analysis.partition.graph with
  | .error _ => []
  | .ok frontiers => (f.controlArcs frontiers).map f.linkOf

/-- All that the search for data dependences finds. -/
def found (f : Frame) : List (Except Untagged Arc) :=
  f.blocks.zipIdx.flatMap fun b => f.dataArcs (.compute f.analysis.flow f.analysis.access) b.1 b.2

/-- Constants, control flow and control dependences. -/
def links (f : Frame) : List Link := f.allConstantLinks ++ f.flowLinks ++ f.drawnControls

/-- Data dependences between blocks. -/
def data (f : Frame) : List Link := (arcsOf f.found).map f.linkOf

/-! ### Losses -/

def controlAbandoned (f : Frame) : Bool :=
  (Frontiers.compute f.analysis.partition.graph).toOption.isNone

def blocksDropped (f : Frame) : Nat :=
  ((Frontiers.compute f.analysis.partition.graph).toOption.map fun fr => fr.stuck.length).getD 0

def skippedEdges (f : Frame) : Nat := (untaggedOf f.found).length

/-- The report on a method with this many new data dependences. -/
def reportWith (f : Frame) (dataEdges : Nat) : Report :=
  ⟨f.blocks.length, dataEdges, f.controlAbandoned, f.blocksDropped, f.skippedEdges⟩

end Frame
end ProgramDependence
