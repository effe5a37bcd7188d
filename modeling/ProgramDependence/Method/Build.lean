import ProgramDependence.Event
import ProgramDependence.Method.Frame

/-! Building one method into a graph. The entry node is always made; a body whose branches leave
it gets nothing else. Nodes are numbered when they are made, and edges are added by number. -/
namespace ProgramDependence

/-- A method half built: the graph so far, what is to be reported, and what was logged. -/
structure Building where
  graph : Graph
  report : Report
  events : List Event

/-- A step of building. One that fails leaves what was built before it. -/
abbrev Builder := EStateM GraphError Building

namespace Builder

/-- The number of the node with an identity, made if there is none. -/
def intern (identity : Identity) : Builder Nat := fun b =>
  .ok (b.graph.intern identity).2 { b with graph := (b.graph.intern identity).1 }

def addEdge (source target : Nat) (tag : String) : Builder Unit := fun b =>
  match b.graph.addEdge source target tag with
  | .ok g => .ok () { b with graph := g }
  | .error e => .error e b

def log (event : Event) : Builder Unit :=
  modify fun b => { b with events := b.events ++ [event] }

def amend (change : Report → Report) : Builder Unit :=
  modify fun b => { b with report := change b.report }

/-- Adds an edge and counts it among the data dependences if it is new. -/
def addDataEdge (source target : Nat) (tag : String) : Builder Unit := do
  let known := (← get).graph.hasEdge source target tag
  amend fun r => if known then r else { r with dataEdges := r.dataEdges + 1 }
  addEdge source target tag

end Builder

/-- The numbers that the nodes of a method got. -/
structure Numbers where
  entry : Nat
  blocks : List Nat

def Numbers.get (n : Numbers) : End → Nat
  | .entry => n.entry
  | .block index => n.blocks.getD index n.entry

namespace Frame

open Builder

/-- A constant depends on the entry and feeds its block. -/
def addConstant (entry node : Nat) (constant : Identity × String) : Builder Unit := do
  let id ← intern constant.1
  addEdge entry id controlTag
  addEdge id node constant.2

/-- The node of a block, followed by its constants. -/
def addBlock (f : Frame) (entry : Nat) (b : Block) : Builder Nat := do
  let node ← intern (f.blockNode b)
  (f.constantsIn b).forM (addConstant entry node)
  pure node

def addArc (n : Numbers) (arc : Arc) : Builder Unit :=
  addEdge (n.get arc.source) (n.get arc.target) arc.tag

def dropStuck (f : Frame) (stuck : List Nat) : Builder Unit :=
  if stuck.isEmpty then pure ()
  else do
    log (.blocksDropped f.method.signature stuck)
    amend fun r => { r with blocksDropped := stuck.length }

def addControl (f : Frame) (n : Numbers) : Builder Unit :=
  match Frontiers.compute f.analysis.partition.graph with
  | .error e => do
    log (.controlAbandoned f.method.signature e)
    amend fun r => { r with controlAbandoned := true }
  | .ok frontiers => do
    f.dropStuck frontiers.stuck
    (f.controlArcs frontiers).forM (addArc n)

/-- A data dependence that has no tag is logged and counted, and left out. -/
def addFound (f : Frame) (n : Numbers) : Except Untagged Arc → Builder Unit
  | .error u => do
    log (.untagged f.method.signature u.name u.instruction)
    amend fun r => { r with skippedEdges := r.skippedEdges + 1 }
  | .ok arc => addDataEdge (n.get arc.source) (n.get arc.target) arc.tag

/-- The data dependences on one block. Its untracked writes are logged first. -/
def addDataOf (f : Frame) (n : Numbers) (reaching : Reaching) (b : Block × Nat) : Builder Unit := do
  (f.untrackedIn b.1).forM fun i => log (.untracked f.method.signature i)
  (f.dataArcs reaching b.1 b.2).forM (f.addFound n)

def addData (f : Frame) (n : Numbers) : Builder Unit :=
  f.blocks.zipIdx.forM (f.addDataOf n (.compute f.analysis.flow f.analysis.access))

/-- Blocks and constants, then control flow, control dependences and data dependences. -/
def build (f : Frame) (entry : Nat) : Builder Unit := do
  log (.building f.method.signature f.analysis.body.size f.blocks.length)
  let blocks ← f.blocks.mapM (f.addBlock entry)
  amend fun r => { r with blocks := blocks.length }
  let n : Numbers := ⟨entry, blocks⟩
  f.flowArcs.forM (addArc n)
  f.addControl n
  f.addData n

end Frame

/-- The graph after a method was added, what came of it, and what was logged on the way. -/
structure MethodResult where
  graph : Graph
  report : Except MethodError Report
  events : List Event

/-- What was built before a failure stays in the graph. -/
def MethodResult.ofRun : EStateM.Result GraphError Building Unit → MethodResult
  | .ok _ b => ⟨b.graph, .ok b.report, b.events⟩
  | .error e b => ⟨b.graph, .error (.graph e), b.events⟩

def buildMethod (labelling : Labelling) (policy : Policy) (c : Class) (m : Method) (body : Body)
    (g : Graph) : MethodResult :=
  let (g, entry) := g.intern (.entry c m)
  match body.analyze policy with
  | .error e => ⟨g, .error (.flow e), []⟩
  | .ok analysis => .ofRun ((Frame.ofAnalysis labelling c m analysis).build entry ⟨g, .none, []⟩)

end ProgramDependence
