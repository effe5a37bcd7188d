import ProgramDependence.Labelling.Tree
import ProgramDependence.Locals.Table
import ProgramDependence.Text.Blank

/-! Expression trees. A local stands for the tree of what it was last given in the block, or for
a leaf with its type. Fields and array elements are leaves with their type, and a call shows its
signature but not its arguments. -/
namespace ProgramDependence

namespace Expr

def callTree (owner method : String) (params : List String) (returns : String) : Tree :=
  .node "call" [
    .leaf (owner ++ "." ++ method),
    .node "params" (params.map .leaf),
    .node "return" [.leaf returns]]

mutual

/-- The tree of an expression, given the trees of locals. -/
def tree (resolve : String → Tree) : Expr → Tree
  | .localVar name => resolve name
  | .constant ty text => .node ty [.leaf text]
  | .parameter _ ty | .receiver ty | .caught ty | .staticField _ _ ty | .instanceField _ _ _ ty
  | .element _ _ ty => .leaf ty
  | .binary op lhs rhs => .node (Text.trim op) [lhs.tree resolve, rhs.tree resolve]
  | .negate operand => .node "negate" [operand.tree resolve]
  | .length operand => .node "length" [operand.tree resolve]
  | .cast ty operand => .node "cast" [.leaf ty, operand.tree resolve]
  | .instanceOf ty operand => .node "instanceof" [operand.tree resolve, .leaf ty]
  | .create ty => .node "new" [.leaf ty]
  | .createArray ty size => .node "new-array" [.leaf ty, size.tree resolve]
  | .createGrid ty sizes => .node "new-multi-array" (.leaf ty :: trees resolve sizes)
  | .staticCall owner method params returns _ => callTree owner method params returns
  | .virtualCall _ owner method params returns _ => callTree owner method params returns

def trees (resolve : String → Tree) : List Expr → List Tree
  | [] => []
  | e :: es => e.tree resolve :: trees resolve es

end

end Expr

namespace Symbolic

/-- A local's own leaf: its type. -/
def leafOf (locals : Locals) (name : String) : Tree :=
  .leaf (((locals.id? name).map locals.typeOf).getD Locals.unknownType)

/-- What the block has gone through so far: trees of the locals given a value, the latest first,
and the trees of the calls made for their effect. -/
structure State where
  given : List (String × Tree) := []
  calls : String := ""

def State.resolve (locals : Locals) (s : State) (name : String) : Tree :=
  (s.given.lookup name).getD (leafOf locals name)

def State.give (locals : Locals) (s : State) (name : String) (value : Expr) : State :=
  { s with given := (name, value.tree (s.resolve locals)) :: s.given }

def State.step (locals : Locals) (s : State) : Stmt → State
  | .identity name value => s.give locals name value
  | .assign (.localVar name) value => s.give locals name value
  | .call expr => { s with calls := s.calls ++ (expr.tree (s.resolve locals)).render }
  | _ => s

/-- The condition of a block that ends in a branch, its locals shown by type. -/
def conditionText (locals : Locals) : Option Stmt → String
  | some (.branch condition _) => (condition.tree (leafOf locals)).render
  | _ => ""

/-- The trees of the locals that the block gives a value and that are live after it, each
followed by a semicolon, then the condition, then the calls. -/
def label (locals : Locals) (stmts : List Stmt) (live : List Nat) : String :=
  let final := stmts.foldl (State.step locals) {}
  let values := live.filterMap fun v => final.given.lookup (locals.nameOf v)
  String.join (values.map fun tree => tree.render ++ ";") ++
    conditionText locals stmts.getLast? ++ final.calls

end Symbolic
end ProgramDependence
