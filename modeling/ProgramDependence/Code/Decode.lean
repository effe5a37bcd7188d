import ProgramDependence.Code.Stmt
import ProgramDependence.Json.Fields

/-! Statements and expressions from JSON. A variant is an object with an entry `kind` or an
array that starts with the kind; fields it does not know are skipped, and of a repeated
key the last entry counts. The kind of an expression may also be given by its number. -/
namespace ProgramDependence

namespace Expr

/-- The kinds of expression in the format. -/
inductive Kind where
  | localVar | constant | parameter | receiver | caught | field | element | binary | negate
  | length | cast | instanceOf | create | createArray | createGrid | call
  deriving DecidableEq, Repr

namespace Kind

def name : Kind → String
  | .localVar => "local"
  | .constant => "constant"
  | .parameter => "parameter"
  | .receiver => "this"
  | .caught => "caught_exception"
  | .field => "field"
  | .element => "array"
  | .binary => "binop"
  | .negate => "neg"
  | .length => "length"
  | .cast => "cast"
  | .instanceOf => "instance_of"
  | .create => "new"
  | .createArray => "new_array"
  | .createGrid => "new_multi_array"
  | .call => "invoke"

/-- The kinds in the order of their numbers. -/
def all : List Kind := [
  .localVar, .constant, .parameter, .receiver, .caught, .field, .element, .binary, .negate,
  .length, .cast, .instanceOf, .create, .createArray, .createGrid, .call]

def ofJson? : Json → Option Kind
  | .str name => all.find? fun kind => kind.name = name
  | .int n => if 0 ≤ n then all[n.toNat]? else none
  | _ => none

def fieldNames : Kind → List String
  | .localVar => ["name"]
  | .constant => ["type", "text"]
  | .parameter => ["index", "type"]
  | .receiver | .caught | .create => ["type"]
  | .field => ["class", "name", "type", "base"]
  | .element => ["base", "index", "type"]
  | .binary => ["op", "lhs", "rhs"]
  | .negate | .length => ["operand"]
  | .cast | .instanceOf => ["type", "operand"]
  | .createArray => ["type", "size"]
  | .createGrid => ["type", "sizes"]
  | .call => ["class", "method", "params", "returns", "base", "args"]

end Kind

/-- A piece of JSON with the expression that it spells, and the expressions that its items
spell if it is an array of them. -/
structure Spelled where
  json : Json
  expr : Option Expr
  exprs : Option (List Expr)

namespace Spelled

def text? (s : Spelled) : Option String := s.json.text?

def word? (s : Spelled) : Option UInt64 := s.json.word?

def texts? (s : Spelled) : Option (List String) := s.json.list? Json.text?

def isNull (s : Spelled) : Bool :=
  match s.json with
  | .null => true
  | _ => false

/-- A receiver may be absent or `null`. -/
def receiver? : Option Spelled → Option (Option Expr)
  | none => some none
  | some s => if s.isNull then some none else s.expr.map some

end Spelled

open Json (Fields orDefault)

/-- The expression of a kind from the slots of its fields. -/
def ofSlots? : Kind → List (Option Spelled) → Option Expr
  | .localVar, [name] => do
    some (.localVar (← name.bind (·.text?)))
  | .constant, [ty, text] => do
    some (.constant (← ty.bind (·.text?)) (← text.bind (·.text?)))
  | .parameter, [index, ty] => do
    some (.parameter (← index.bind (·.word?)) (← ty.bind (·.text?)))
  | .receiver, [ty] => do
    some (.receiver (← ty.bind (·.text?)))
  | .caught, [ty] => do
    some (.caught (← ty.bind (·.text?)))
  | .field, [owner, name, ty, base] => do
    let owner ← owner.bind (·.text?)
    let name ← name.bind (·.text?)
    let ty ← ty.bind (·.text?)
    match ← Spelled.receiver? base with
    | none => some (.staticField owner name ty)
    | some base => some (.instanceField base owner name ty)
  | .element, [base, index, ty] => do
    some (.element (← base.bind (·.expr)) (← index.bind (·.expr)) (← ty.bind (·.text?)))
  | .binary, [op, lhs, rhs] => do
    some (.binary (← op.bind (·.text?)) (← lhs.bind (·.expr)) (← rhs.bind (·.expr)))
  | .negate, [operand] => do
    some (.negate (← operand.bind (·.expr)))
  | .length, [operand] => do
    some (.length (← operand.bind (·.expr)))
  | .cast, [ty, operand] => do
    some (.cast (← ty.bind (·.text?)) (← operand.bind (·.expr)))
  | .instanceOf, [ty, operand] => do
    some (.instanceOf (← ty.bind (·.text?)) (← operand.bind (·.expr)))
  | .create, [ty] => do
    some (.create (← ty.bind (·.text?)))
  | .createArray, [ty, size] => do
    some (.createArray (← ty.bind (·.text?)) (← size.bind (·.expr)))
  | .createGrid, [ty, sizes] => do
    some (.createGrid (← ty.bind (·.text?)) (← sizes.bind (·.exprs)))
  | .call, [owner, method, params, returns, base, args] => do
    let owner ← owner.bind (·.text?)
    let method ← method.bind (·.text?)
    let params ← orDefault [] (·.texts?) params
    let returns ← returns.bind (·.text?)
    let args ← orDefault [] (·.exprs) args
    match ← Spelled.receiver? base with
    | none => some (.staticCall owner method params returns args)
    | some base => some (.virtualCall base owner method params returns args)
  | _, _ => none

def ofFields? (fields : Fields Spelled) : Option Expr := do
  let (tag, fields) ← fields.tagged
  let kind ← Kind.ofJson? tag.json
  ofSlots? kind (← fields.slots kind.fieldNames)

mutual

def spell : Json → Spelled
  | .arr items =>
    let parts := spellItems items
    ⟨.arr items, ofFields? (.listed parts), parts.mapM (·.expr)⟩
  | .obj entries => ⟨.obj entries, ofFields? (.named (spellEntries entries)), none⟩
  | .null => ⟨.null, none, none⟩
  | .bool b => ⟨.bool b, none, none⟩
  | .int n => ⟨.int n, none, none⟩
  | .real => ⟨.real, none, none⟩
  | .str s => ⟨.str s, none, none⟩

def spellItems : List Json → List Spelled
  | [] => []
  | j :: js => spell j :: spellItems js

def spellEntries : List (String × Json) → List (String × Spelled)
  | [] => []
  | (key, j) :: es => (key, spell j) :: spellEntries es

end

def ofJson? (j : Json) : Option Expr := (spell j).expr

end Expr

namespace Stmt

inductive Kind where
  | identity | assign | branch | goto | switch | call | ret | throw | nop
  deriving DecidableEq, Repr

namespace Kind

def name : Kind → String
  | .identity => "identity"
  | .assign => "assign"
  | .branch => "if"
  | .goto => "goto"
  | .switch => "switch"
  | .call => "invoke"
  | .ret => "return"
  | .throw => "throw"
  | .nop => "nop"

def all : List Kind := [
  .identity, .assign, .branch, .goto, .switch, .call, .ret, .throw, .nop]

/-- The kind of a statement is always given by name. -/
def ofJson? : Json → Option Kind
  | .str name => all.find? fun kind => kind.name = name
  | _ => none

def fieldNames : Kind → List String
  | .identity => ["local", "value"]
  | .assign => ["lhs", "rhs"]
  | .branch => ["condition", "target"]
  | .goto => ["target"]
  | .switch => ["key", "targets", "default"]
  | .call => ["expr"]
  | .ret | .throw => ["value"]
  | .nop => []

end Kind

open Json (orDefault)

/-- The value of a return may be absent or `null`. -/
def result? : Json → Option (Option Expr)
  | .null => some none
  | j => (Expr.ofJson? j).map some

def ofSlots? : Kind → List (Option Json) → Option Stmt
  | .identity, [name, value] => do
    some (.identity (← name.bind (·.text?)) (← value.bind Expr.ofJson?))
  | .assign, [lhs, rhs] => do
    some (.assign (← lhs.bind Expr.ofJson?) (← rhs.bind Expr.ofJson?))
  | .branch, [condition, target] => do
    some (.branch (← condition.bind Expr.ofJson?) (← target.bind (·.word?)))
  | .goto, [target] => do
    some (.goto (← target.bind (·.word?)))
  | .switch, [key, targets, fallback] => do
    some (.switch (← key.bind Expr.ofJson?) (← targets.bind (·.list? Json.word?))
      (← fallback.bind (·.word?)))
  | .call, [expr] => do
    some (.call (← expr.bind Expr.ofJson?))
  | .ret, [value] => do
    some (.ret (← orDefault none result? value))
  | .throw, [value] => do
    some (.throw (← value.bind Expr.ofJson?))
  | .nop, [] => some .nop
  | _, _ => none

def ofJson? (j : Json) : Option Stmt := do
  let (tag, fields) ← (← j.fields?).tagged
  let kind ← Kind.ofJson? tag
  ofSlots? kind (← fields.slots kind.fieldNames)

end Stmt
end ProgramDependence
