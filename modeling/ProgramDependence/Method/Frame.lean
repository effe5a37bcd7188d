import ProgramDependence.Code.Class
import ProgramDependence.Graph.Basic
import ProgramDependence.Labelling.Block
import ProgramDependence.Locals.Reaching
import ProgramDependence.PostDominance.Frontier

/-! What is known of a method when it is built: the identities of its nodes, and the edges between
them. Edges are given by the ends they have within the method, since what number a node gets is up to
the graph: nodes that look alike fall together. -/
namespace ProgramDependence

/-- A data dependence without a place among the operands of the instruction that reads. -/
structure Untagged where
  name : String
  instruction : Nat
  deriving DecidableEq, Repr

def flowTag : String := "cfg"

def controlTag : String := "cdg"

/-- A data dependence is tagged with the type of what is read and its place among the
operands. -/
def dataTag (ty : String) (index : Nat) : String := s!"{ty}:{index}"

def Identity.within (c : Class) (m : Method) (kind : NodeKind) (label extra : String)
    (span : Span) : Identity where
  label := label
  extra := extra
  package := c.package
  className := c.name
  sourceFile := c.sourceFile
  method := m.signature
  kind := kind.name
  span := span

def Identity.entry (c : Class) (m : Method) : Identity :=
  .within c m .entry (c.name ++ "." ++ m.name) ""
    ⟨m.startLine, m.startColumn, m.startLine, m.startColumn⟩

namespace Analysis

/-- From where the first instruction starts to where the last one starts. -/
def spanOf (code : List Instruction) : Span :=
  let first := (code.head?.map (·.span)).getD .zero
  let last := (code.getLast?.map (·.span)).getD .zero
  ⟨first.startLine, first.startColumn, last.startLine, last.startColumn⟩

def blockNode (a : Analysis) (labelling : Labelling) (c : Class) (m : Method) (b : Block) :
    Identity :=
  .within c m (a.blockKind b) (a.label labelling b) (a.listing b) (spanOf (a.codeOf b))

end Analysis

/-- An end of an edge within a method: its entry, or the block with a number. -/
inductive End where
  | entry
  | block (index : Nat)
  deriving DecidableEq, Repr

structure Arc where
  source : End
  target : End
  tag : String
  deriving DecidableEq, Repr

/-- A method under construction. -/
structure Frame where
  owner : Class
  method : Method
  labelling : Labelling
  analysis : Analysis

namespace Frame

def ofAnalysis (labelling : Labelling) (c : Class) (m : Method) (a : Analysis) : Frame :=
  ⟨c, m, labelling, a⟩

def entry (f : Frame) : Identity := .entry f.owner f.method

def blocks (f : Frame) : List Block := f.analysis.blocks

def blockNode (f : Frame) (b : Block) : Identity :=
  f.analysis.blockNode f.labelling f.owner f.method b

/-! ### Constants -/

def constantNode (f : Frame) (i : Instruction) (ty text : String) : Identity :=
  .within f.owner f.method .constant (ty ++ ":" ++ text) text i.span

/-- The constants among the operands of an instruction, with their places. -/
def constantsOf (f : Frame) (i : Instruction) : List (Identity × String) :=
  i.stmt.operands.zipIdx.filterMap fun (operand, index) =>
    match operand with
    | .constant ty text => some (f.constantNode i ty text, dataTag ty index)
    | .localVar _ => none

/-- Constants are nodes of their own only beside expression trees. -/
def constantsIn (f : Frame) (b : Block) : List (Identity × String) :=
  match f.labelling with
  | .trees => (f.analysis.codeOf b).flatMap f.constantsOf
  | .listing | .operators => []

/-! ### Control flow -/

/-- The entry leads to the first block and to every block that nothing else leads to. -/
def flowArcs (f : Frame) : List Arc :=
  let g := f.analysis.partition.graph
  let fromEntry := (List.range g.size).take 1 ++ g.heads
  fromEntry.map (fun b => ⟨.entry, .block b, flowTag⟩) ++
    (List.range g.size).flatMap fun b => (g.succs b).map fun s => ⟨.block b, .block s, flowTag⟩

/-! ### Control dependences -/

/-- Blocks that reach an exit. Only they have control dependences. -/
def exiting (f : Frame) (frontiers : Frontiers) : List Nat :=
  (List.range f.blocks.length).filter fun y => !frontiers.stuck.contains y

/-- A block depends on the blocks of its frontier, and on the entry if that leaves none but
itself. -/
def controlArcs (f : Frame) (frontiers : Frontiers) : List Arc :=
  let alone := (f.exiting frontiers).filter fun y => (frontiers.frontier y).all fun x => x = y
  (f.exiting frontiers).flatMap (fun y =>
      (frontiers.frontier y).map fun x => ⟨.block x, .block y, controlTag⟩) ++
    alone.map fun y => ⟨.entry, .block y, controlTag⟩

/-! ### Data dependences -/

/-- Assignments in a block whose left side is no plain local. -/
def untrackedIn (f : Frame) (b : Block) : List Nat :=
  b.instructions.filter fun i =>
    (f.analysis.body.stmts[i]?.any Stmt.isDefinition) && (f.analysis.access.def? i).isNone

def dataArc (f : Frame) (index d : Nat) (use : Nat × Nat) : Option (Except Untagged Arc) :=
  let a := f.analysis
  let target := a.partition.owner use.1
  if target = index && d < use.1 then none
  else
    let name := a.locals.nameOf use.2
    match a.body.stmts[use.1]?.bind fun s => s.operandIndex? name with
    | none => some (.error ⟨name, use.1⟩)
    | some place =>
      some (.ok ⟨.block index, .block target, dataTag (a.locals.typeOf use.2) place⟩)

/-- The definitions of a block whose local is live after it, each with the reads it reaches. A
read further down the same block stays inside it. -/
def dataArcs (f : Frame) (reaching : Reaching) (b : Block) (index : Nat) :
    List (Except Untagged Arc) :=
  (f.analysis.liveAfter b).flatMap fun v =>
    (b.instructions.filter fun d => f.analysis.access.def? d = some v).flatMap fun d =>
      (reaching.usesOf d).filterMap (f.dataArc index d)

end Frame

end ProgramDependence
