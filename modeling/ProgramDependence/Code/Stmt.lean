import ProgramDependence.Code.Expr

/-! Statements, and what the analyses ask of one: its operands, the local it defines, and where
control goes after it. Branch targets are positions in the body. -/
namespace ProgramDependence

inductive Stmt where
  | identity (name : String) (value : Expr)
  | assign (lhs rhs : Expr)
  | branch (condition : Expr) (target : UInt64)
  | goto (target : UInt64)
  | switch (key : Expr) (targets : List UInt64) (fallback : UInt64)
  | call (expr : Expr)
  | ret (value : Option Expr)
  | throw (value : Expr)
  | nop

namespace Stmt

/-- Locals and constants in the order in which they are written. A plain local on the left of
an assignment is written, not read. -/
def operands : Stmt → List Operand
  | .identity _ value => value.operands
  | .assign (.localVar _) rhs => rhs.operands
  | .assign lhs rhs => lhs.operands ++ rhs.operands
  | .branch condition _ => condition.operands
  | .goto _ => []
  | .switch key _ _ => key.operands
  | .call expr => expr.operands
  | .ret none => []
  | .ret (some value) => value.operands
  | .throw value => value.operands
  | .nop => []

def usedLocals (s : Stmt) : List String := s.operands.filterMap Operand.local?

/-- The first position of a local among the operands. -/
def operandIndex? (s : Stmt) (name : String) : Option Nat :=
  s.operands.findIdx? fun operand => operand.local? = some name

/-- The local that the statement writes; a field or an array element is none. -/
def definedLocal? : Stmt → Option String
  | .identity name _ => some name
  | .assign lhs _ => lhs.local?
  | _ => none

def isDefinition : Stmt → Bool
  | .identity .. | .assign .. => true
  | _ => false

/-- The call that the statement makes, bare or on the right of an assignment. -/
def call? : Stmt → Option Expr
  | .call expr => some expr
  | .assign _ rhs => if rhs.isCall then some rhs else none
  | _ => none

def targets : Stmt → List Nat
  | .branch _ target | .goto target => [target.toNat]
  | .switch _ targets fallback => targets.map UInt64.toNat ++ [fallback.toNat]
  | _ => []

/-- Whether control may go on to the next instruction. -/
def fallsThrough : Stmt → Bool
  | .goto .. | .switch .. | .ret .. | .throw .. => false
  | _ => true

/-- Whether the statement is the last of its block under every policy. -/
def endsBlock : Stmt → Bool
  | .identity .. | .assign .. | .call .. | .nop => false
  | _ => true

def text : Stmt → String
  | .identity name value => name ++ " := " ++ value.text
  | .assign lhs rhs => lhs.text ++ " = " ++ rhs.text
  | .branch condition target => "if " ++ condition.text ++ s!" goto {target.toNat}"
  | .goto target => s!"goto {target.toNat}"
  | .switch key targets fallback =>
    let listed := ", ".intercalate (targets.map fun target => toString target.toNat)
    "switch(" ++ key.text ++ s!") [{listed}] default {fallback.toNat}"
  | .call expr => expr.text
  | .ret none => "return"
  | .ret (some value) => "return " ++ value.text
  | .throw value => "throw " ++ value.text
  | .nop => "nop"

end Stmt
end ProgramDependence
