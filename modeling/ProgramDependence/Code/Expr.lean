/-! Expressions of three-address code: locals, constants and one operation over them, though
nothing keeps an operation from nesting. Field accesses and calls come with a receiver or
without one. -/
namespace ProgramDependence

inductive Expr where
  | localVar (name : String)
  | constant (ty text : String)
  | parameter (index : UInt64) (ty : String)
  | receiver (ty : String)
  | caught (ty : String)
  | staticField (owner name ty : String)
  | instanceField (base : Expr) (owner name ty : String)
  | element (base index : Expr) (ty : String)
  | binary (op : String) (lhs rhs : Expr)
  | negate (operand : Expr)
  | length (operand : Expr)
  | cast (ty : String) (operand : Expr)
  | instanceOf (ty : String) (operand : Expr)
  | create (ty : String)
  | createArray (ty : String) (size : Expr)
  | createGrid (ty : String) (sizes : List Expr)
  | staticCall (owner method : String) (params : List String) (returns : String)
      (args : List Expr)
  | virtualCall (base : Expr) (owner method : String) (params : List String) (returns : String)
      (args : List Expr)

/-- What an operation reads: a local or a constant. -/
inductive Operand where
  | localVar (name : String)
  | constant (ty text : String)
  deriving DecidableEq, Repr

namespace Operand

def local? : Operand → Option String
  | .localVar name => some name
  | .constant _ _ => none

def text : Operand → String
  | .localVar name => name
  | .constant _ text => text

end Operand

namespace Expr

def local? : Expr → Option String
  | .localVar name => some name
  | _ => none

def isCall : Expr → Bool
  | .staticCall .. | .virtualCall .. => true
  | _ => false

mutual

/-- The locals and constants of an expression from left to right, repetitions included. -/
def operands : Expr → List Operand
  | .localVar name => [.localVar name]
  | .constant ty text => [.constant ty text]
  | .parameter .. | .receiver .. | .caught .. | .staticField .. | .create .. => []
  | .instanceField base _ _ _ => base.operands
  | .element base index _ => base.operands ++ index.operands
  | .binary _ lhs rhs => lhs.operands ++ rhs.operands
  | .negate operand | .length operand | .cast _ operand | .instanceOf _ operand => operand.operands
  | .createArray _ size => size.operands
  | .createGrid _ sizes => operandsOf sizes
  | .staticCall _ _ _ _ args => operandsOf args
  | .virtualCall base _ _ _ _ args => base.operands ++ operandsOf args

def operandsOf : List Expr → List Operand
  | [] => []
  | e :: es => e.operands ++ operandsOf es

end

def fieldText (owner name ty : String) : String := s!"<{owner}: {ty} {name}>"

def callText (owner method : String) (params : List String) (returns : String)
    (args : List String) : String :=
  let params := ",".intercalate params
  let args := ", ".intercalate args
  s!"<{owner}: {returns} {method}({params})>({args})"

mutual

/-- The expression as a listing shows it. -/
def text : Expr → String
  | .localVar name => name
  | .constant _ text => text
  | .parameter index ty => s!"@parameter{index.toNat}: {ty}"
  | .receiver ty => s!"@this: {ty}"
  | .caught _ => "@caughtexception"
  | .staticField owner name ty => fieldText owner name ty
  | .instanceField base owner name ty => base.text ++ "." ++ fieldText owner name ty
  | .element base index _ => base.text ++ "[" ++ index.text ++ "]"
  | .binary op lhs rhs => lhs.text ++ " " ++ op ++ " " ++ rhs.text
  | .negate operand => "neg " ++ operand.text
  | .length operand => "lengthof " ++ operand.text
  | .cast ty operand => "(" ++ ty ++ ") " ++ operand.text
  | .instanceOf ty operand => operand.text ++ " instanceof " ++ ty
  | .create ty => "new " ++ ty
  | .createArray ty size => "newarray (" ++ ty ++ ")[" ++ size.text ++ "]"
  | .createGrid ty sizes =>
    "newmultiarray (" ++ ty ++ ")" ++ String.join ((texts sizes).map fun size => "[" ++ size ++ "]")
  | .staticCall owner method params returns args =>
    "staticinvoke " ++ callText owner method params returns (texts args)
  | .virtualCall base owner method params returns args =>
    "virtualinvoke " ++ base.text ++ "." ++ callText owner method params returns (texts args)

def texts : List Expr → List String
  | [] => []
  | e :: es => e.text :: texts es

end

end Expr
end ProgramDependence
