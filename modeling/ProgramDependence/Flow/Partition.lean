import ProgramDependence.Flow.Steps

/-! Basic blocks: runs of instructions that control enters at the first and leaves at the
last. -/
namespace ProgramDependence

inductive Policy where
  /-- One instruction per block. -/
  | unit
  /-- Longest blocks, but with every call in a block of its own. -/
  | expanded
  deriving DecidableEq, Repr

structure Block where
  first : Nat
  last : Nat
  deriving DecidableEq, Repr

def Block.instructions (b : Block) : List Nat := List.range' b.first (b.last + 1 - b.first)

def Block.holds (b : Block) (i : Nat) : Bool := b.first ≤ i && i ≤ b.last

structure Partition where
  blocks : List Block
  graph : Digraph

namespace Partition

def isCall (s : Stmt) : Bool := s.call?.isSome

/-- The leaders that a statement makes. Longest blocks start at branch targets, after a statement
that ends a block, where several ways meet, and at and after calls. -/
def leadersFrom (policy : Policy) (flow : Digraph) (s : Stmt) (i : Nat) : List Nat :=
  match policy with
  | .unit => [i]
  | .expanded =>
    s.targets ++ (if s.endsBlock then [i + 1] else []) ++
      (if (flow.preds i).length > 1 then [i] else []) ++ (if isCall s then [i, i + 1] else [])

/-- The first instruction and all that statements ask for, less what is past the end. -/
def leaders (policy : Policy) (stmts : List Stmt) (flow : Digraph) : List Nat :=
  (stmts.zipIdx.foldl (fun set (s, i) => (leadersFrom policy flow s i).foldr Ascending.insert set)
    (if stmts.isEmpty then [] else [0])).filter fun i => i < stmts.length

/-- Each leader's block lasts until the next leader, the last one until the end. -/
def cut (size : Nat) : List Nat → List Block
  | [] => []
  | [a] => [⟨a, size - 1⟩]
  | a :: b :: rest => ⟨a, b - 1⟩ :: cut size (b :: rest)

/-- The number of the block that holds an instruction. -/
def ownerIn (blocks : List Block) (i : Nat) : Nat := blocks.findIdx fun b => b.holds i

def compute (policy : Policy) (stmts : List Stmt) (flow : Digraph) : Partition :=
  let blocks := cut stmts.length (leaders policy stmts flow)
  ⟨blocks, ⟨blocks.map fun b => Ascending.ofList ((flow.succs b.last).map (ownerIn blocks))⟩⟩

def owner (p : Partition) (i : Nat) : Nat := ownerIn p.blocks i

def size (p : Partition) : Nat := p.blocks.length

end Partition
end ProgramDependence
