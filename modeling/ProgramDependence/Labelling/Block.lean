import ProgramDependence.Labelling.Token
import ProgramDependence.Labelling.Symbolic
import ProgramDependence.Method.Analysis

/-! What a block is called in the graph, and what kind of node it is. -/
namespace ProgramDependence

inductive NodeKind where
  | entry | constant | branch | switch | ret | throw | call | assignments
  deriving DecidableEq, Repr

def NodeKind.name : NodeKind → String
  | .entry => "entry"
  | .constant => "constant"
  | .branch => "branch"
  | .switch => "switch"
  | .ret => "return"
  | .throw => "throw"
  | .call => "call"
  | .assignments => "assignments"

inductive Labelling where
  /-- The statements, one a line. -/
  | listing
  /-- The trees of what the block leaves behind. -/
  | trees
  /-- One operator per statement. -/
  | operators
  deriving DecidableEq, Repr

namespace Analysis

/-- The statements of a block, each on a line of its own. -/
def listing (a : Analysis) (b : Block) : String :=
  String.join ((a.stmtsOf b).map fun s => s.text ++ "\n")

/-- A block is of the kind of its last statement if that moves control, else it is a call if it
makes one. -/
def kindOf (stmts : List Stmt) : NodeKind :=
  match stmts.getLast? with
  | some (.branch ..) => .branch
  | some (.switch ..) => .switch
  | some (.ret ..) => .ret
  | some (.throw ..) => .throw
  | _ => if stmts.any fun s => s.call?.isSome then .call else .assignments

def label (a : Analysis) (labelling : Labelling) (b : Block) : String :=
  match labelling with
  | .listing => a.listing b
  | .trees => Symbolic.label a.locals (a.stmtsOf b) (a.liveAfter b)
  | .operators => Stmt.tokens (a.stmtsOf b)

def blockKind (a : Analysis) (b : Block) : NodeKind := kindOf (a.stmtsOf b)

end Analysis
end ProgramDependence
