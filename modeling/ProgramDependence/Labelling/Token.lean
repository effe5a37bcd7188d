import ProgramDependence.Code.Stmt
import ProgramDependence.Text.Blank

/-! One word per statement for what it does. -/
namespace ProgramDependence

def Expr.token : Expr → String
  | .localVar _ => "="
  | .constant _ text => text
  | .parameter index _ => s!"param({index.toNat})"
  | .receiver _ => "this"
  | .caught _ => "caughtexception"
  | .staticField owner name _ | .instanceField _ owner name _ => owner ++ "." ++ name
  | .element .. => "array"
  | .binary op _ _ => Text.trim op
  | .negate _ => "negate"
  | .length _ => "length"
  | .cast .. => "cast"
  | .instanceOf .. => "instanceof"
  | .create _ => "new"
  | .createArray .. => "new-array"
  | .createGrid .. => "new-multi-array"
  | .staticCall owner method _ _ _ | .virtualCall _ owner method _ _ _ => owner ++ "." ++ method

def Stmt.token : Stmt → String
  | .identity _ value => value.token
  | .assign (.localVar _) rhs => rhs.token
  | .assign lhs (.localVar _) => lhs.token ++ "="
  | .assign lhs rhs => lhs.token ++ "=" ++ rhs.token
  | .branch condition _ => condition.token
  | .goto _ => "goto"
  | .switch .. => "switch"
  | .call expr => expr.token
  | .ret _ => "return"
  | .throw _ => "throw"
  | .nop => "nop"

def Stmt.tokens (stmts : List Stmt) : String := ":".intercalate (stmts.map Stmt.token)

end ProgramDependence
