import ProgramDependence.Code.Stmt
import ProgramDependence.Json.Writer

/-! Statements and expressions as JSON objects: first the kind, then the fields in a fixed
order. An absent receiver or result is `null`. -/
namespace ProgramDependence

def Json.texts (strings : List String) : Json := .arr (strings.map .str)

def Json.word (n : UInt64) : Json := .int n.toNat

namespace Expr

mutual

def toJson : Expr → Json
  | .localVar name => .obj [("kind", .str "local"), ("name", .str name)]
  | .constant ty text => .obj [("kind", .str "constant"), ("type", .str ty), ("text", .str text)]
  | .parameter index ty =>
    .obj [("kind", .str "parameter"), ("index", .word index), ("type", .str ty)]
  | .receiver ty => .obj [("kind", .str "this"), ("type", .str ty)]
  | .caught ty => .obj [("kind", .str "caught_exception"), ("type", .str ty)]
  | .staticField owner name ty =>
    .obj [("kind", .str "field"), ("class", .str owner), ("name", .str name), ("type", .str ty),
      ("base", .null)]
  | .instanceField base owner name ty =>
    .obj [("kind", .str "field"), ("class", .str owner), ("name", .str name), ("type", .str ty),
      ("base", base.toJson)]
  | .element base index ty =>
    .obj [("kind", .str "array"), ("base", base.toJson), ("index", index.toJson),
      ("type", .str ty)]
  | .binary op lhs rhs =>
    .obj [("kind", .str "binop"), ("op", .str op), ("lhs", lhs.toJson), ("rhs", rhs.toJson)]
  | .negate operand => .obj [("kind", .str "neg"), ("operand", operand.toJson)]
  | .length operand => .obj [("kind", .str "length"), ("operand", operand.toJson)]
  | .cast ty operand =>
    .obj [("kind", .str "cast"), ("type", .str ty), ("operand", operand.toJson)]
  | .instanceOf ty operand =>
    .obj [("kind", .str "instance_of"), ("type", .str ty), ("operand", operand.toJson)]
  | .create ty => .obj [("kind", .str "new"), ("type", .str ty)]
  | .createArray ty size =>
    .obj [("kind", .str "new_array"), ("type", .str ty), ("size", size.toJson)]
  | .createGrid ty sizes =>
    .obj [("kind", .str "new_multi_array"), ("type", .str ty), ("sizes", .arr (toJsons sizes))]
  | .staticCall owner method params returns args =>
    .obj [("kind", .str "invoke"), ("class", .str owner), ("method", .str method),
      ("params", .texts params), ("returns", .str returns), ("base", .null),
      ("args", .arr (toJsons args))]
  | .virtualCall base owner method params returns args =>
    .obj [("kind", .str "invoke"), ("class", .str owner), ("method", .str method),
      ("params", .texts params), ("returns", .str returns), ("base", base.toJson),
      ("args", .arr (toJsons args))]

def toJsons : List Expr → List Json
  | [] => []
  | e :: es => e.toJson :: toJsons es

end

end Expr

namespace Stmt

def toJson : Stmt → Json
  | .identity name value =>
    .obj [("kind", .str "identity"), ("local", .str name), ("value", value.toJson)]
  | .assign lhs rhs => .obj [("kind", .str "assign"), ("lhs", lhs.toJson), ("rhs", rhs.toJson)]
  | .branch condition target =>
    .obj [("kind", .str "if"), ("condition", condition.toJson), ("target", .word target)]
  | .goto target => .obj [("kind", .str "goto"), ("target", .word target)]
  | .switch key targets fallback =>
    .obj [("kind", .str "switch"), ("key", key.toJson), ("targets", .arr (targets.map .word)),
      ("default", .word fallback)]
  | .call expr => .obj [("kind", .str "invoke"), ("expr", expr.toJson)]
  | .ret none => .obj [("kind", .str "return"), ("value", .null)]
  | .ret (some value) => .obj [("kind", .str "return"), ("value", value.toJson)]
  | .throw value => .obj [("kind", .str "throw"), ("value", value.toJson)]
  | .nop => .obj [("kind", .str "nop")]

def encode (s : Stmt) : List Char := s.toJson.write

end Stmt
end ProgramDependence
