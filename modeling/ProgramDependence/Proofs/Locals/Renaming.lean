import Mathlib.Data.List.Basic
import Mathlib.Data.Set.Function
import ProgramDependence.Flow.Partition
import ProgramDependence.Proofs.Locals.Table

/-! Other names for the locals of a body. Control flow and blocks do not look at names at all. The
table of locals gives a new name the number of the old one, as long as no two names that occur in
the body fall together; what an instruction writes and reads by number is then the same. -/
namespace ProgramDependence

/-! ### Syntax -/

namespace Expr

mutual

def rename (new : String → String) : Expr → Expr
  | .localVar name => .localVar (new name)
  | .constant ty text => .constant ty text
  | .parameter index ty => .parameter index ty
  | .receiver ty => .receiver ty
  | .caught ty => .caught ty
  | .staticField owner name ty => .staticField owner name ty
  | .instanceField base owner name ty => .instanceField (base.rename new) owner name ty
  | .element base index ty => .element (base.rename new) (index.rename new) ty
  | .binary op lhs rhs => .binary op (lhs.rename new) (rhs.rename new)
  | .negate operand => .negate (operand.rename new)
  | .length operand => .length (operand.rename new)
  | .cast ty operand => .cast ty (operand.rename new)
  | .instanceOf ty operand => .instanceOf ty (operand.rename new)
  | .create ty => .create ty
  | .createArray ty size => .createArray ty (size.rename new)
  | .createGrid ty sizes => .createGrid ty (renameAll new sizes)
  | .staticCall owner method params returns args =>
    .staticCall owner method params returns (renameAll new args)
  | .virtualCall base owner method params returns args =>
    .virtualCall (base.rename new) owner method params returns (renameAll new args)

def renameAll (new : String → String) : List Expr → List Expr
  | [] => []
  | e :: es => e.rename new :: renameAll new es

end

end Expr

def Operand.rename (new : String → String) : Operand → Operand
  | .localVar name => .localVar (new name)
  | .constant ty text => .constant ty text

def Stmt.rename (new : String → String) : Stmt → Stmt
  | .identity name value => .identity (new name) (value.rename new)
  | .assign lhs rhs => .assign (lhs.rename new) (rhs.rename new)
  | .branch condition target => .branch (condition.rename new) target
  | .goto target => .goto target
  | .switch key targets fallback => .switch (key.rename new) targets fallback
  | .call expr => .call (expr.rename new)
  | .ret value => .ret (value.map (Expr.rename new))
  | .throw value => .throw (value.rename new)
  | .nop => .nop

def Instruction.rename (new : String → String) (i : Instruction) : Instruction :=
  { i with stmt := i.stmt.rename new }

def LocalDecl.rename (new : String → String) (d : LocalDecl) : LocalDecl :=
  { d with name := new d.name }

/-- The body with every declaration, every target and every local among the values under its new
name. -/
def Body.rename (new : String → String) (b : Body) : Body :=
  ⟨b.locals.map (LocalDecl.rename new), b.code.map (Instruction.rename new)⟩

/-- The locals that occur in a statement. -/
def Stmt.names (s : Stmt) : List String := s.definedLocal?.toList ++ s.usedLocals

/-- The locals that occur in a body, declared or not. -/
def Body.names (b : Body) : List String := b.locals.map (·.name) ++ b.stmts.flatMap Stmt.names

variable (new : String → String)

namespace Expr

mutual

theorem operands_rename (e : Expr) :
    (e.rename new).operands = e.operands.map (Operand.rename new) := by
  match e with
  | .localVar _ | .constant .. | .parameter .. | .receiver _ | .caught _ | .staticField ..
  | .create _ => rfl
  | .instanceField base .. | .negate base | .length base | .cast _ base | .instanceOf _ base
  | .createArray _ base => exact operands_rename base
  | .element lhs rhs _ | .binary _ lhs rhs =>
    simp only [rename, operands, operands_rename lhs, operands_rename rhs, List.map_append]
  | .createGrid _ es | .staticCall _ _ _ _ es => exact operandsOf_rename es
  | .virtualCall base _ _ _ _ es =>
    simp only [rename, operands, operands_rename base, operandsOf_rename es, List.map_append]

theorem operandsOf_rename (es : List Expr) :
    operandsOf (renameAll new es) = (operandsOf es).map (Operand.rename new) := by
  match es with
  | [] => rfl
  | e :: es =>
    simp only [renameAll, operandsOf, operands_rename e, operandsOf_rename es, List.map_append]

end

theorem local?_rename (e : Expr) : (e.rename new).local? = e.local?.map new := by
  cases e <;> rfl

theorem isCall_rename (e : Expr) : (e.rename new).isCall = e.isCall := by
  cases e <;> rfl

end Expr

namespace Stmt

theorem operands_assign (lhs rhs : Expr) :
    (assign lhs rhs).operands = (if lhs.local?.isSome then [] else lhs.operands) ++ rhs.operands := by
  cases lhs <;> rfl

theorem operands_rename (s : Stmt) :
    (s.rename new).operands = s.operands.map (Operand.rename new) := by
  cases s with
  | assign lhs rhs =>
    simp only [rename, operands_assign, Expr.local?_rename, Option.isSome_map, Expr.operands_rename,
      List.map_append]
    split <;> rfl
  | ret value =>
    cases value with
    | none => rfl
    | some value => exact Expr.operands_rename new value
  | identity _ value | branch value _ | switch value _ _ | call value | throw value =>
    exact Expr.operands_rename new value
  | goto _ | nop => rfl

theorem definedLocal?_rename (s : Stmt) : (s.rename new).definedLocal? = s.definedLocal?.map new := by
  cases s with
  | assign lhs _ => exact Expr.local?_rename new lhs
  | _ => rfl

theorem usedLocals_rename (s : Stmt) : (s.rename new).usedLocals = s.usedLocals.map new := by
  rw [usedLocals, usedLocals, operands_rename, List.filterMap_map, List.map_filterMap]
  refine List.filterMap_congr fun operand _ => ?_
  cases operand <;> rfl

theorem names_rename (s : Stmt) : (s.rename new).names = s.names.map new := by
  rw [names, names, definedLocal?_rename, usedLocals_rename, List.map_append]
  cases s.definedLocal? <;> rfl

theorem targets_rename (s : Stmt) : (s.rename new).targets = s.targets := by
  cases s <;> rfl

theorem fallsThrough_rename (s : Stmt) : (s.rename new).fallsThrough = s.fallsThrough := by
  cases s <;> rfl

theorem endsBlock_rename (s : Stmt) : (s.rename new).endsBlock = s.endsBlock := by
  cases s <;> rfl

theorem call?_rename (s : Stmt) : (s.rename new).call? = s.call?.map (Expr.rename new) := by
  cases s with
  | assign _ rhs =>
    simp only [rename, call?, Expr.isCall_rename]
    split <;> rfl
  | _ => rfl

end Stmt

/-! ### Control flow -/

theorem Body.stmts_rename (b : Body) : (b.rename new).stmts = b.stmts.map (Stmt.rename new) := by
  simp only [stmts, rename, List.map_map]
  rfl

theorem Body.size_rename (b : Body) : (b.rename new).size = b.size := by
  simp [size, rename]

theorem Body.flow?_rename (b : Body) : (b.rename new).flow? = b.flow? := by
  simp only [flow?, badTarget?, following, stmts_rename, size_rename, List.zipIdx_map,
    List.findSome?_map, List.map_map, Function.comp_def, Prod.map_fst, Prod.map_snd, id,
    Stmt.targets_rename, Stmt.fallsThrough_rename]

theorem Partition.isCall_rename (s : Stmt) : isCall (s.rename new) = isCall s := by
  rw [isCall, isCall, Stmt.call?_rename, Option.isSome_map]

theorem Partition.compute_rename (policy : Policy) (stmts : List Stmt) (flow : Digraph) :
    compute policy (stmts.map (Stmt.rename new)) flow = compute policy stmts flow := by
  have asked : (fun set (p : Stmt × Nat) =>
      (leadersFrom policy flow (p.1.rename new) p.2).foldr Ascending.insert set) =
      fun set (p : Stmt × Nat) => (leadersFrom policy flow p.1 p.2).foldr Ascending.insert set := by
    funext set p
    simp only [leadersFrom, Stmt.targets_rename, Stmt.endsBlock_rename, isCall_rename]
  have same : leaders policy (stmts.map (Stmt.rename new)) flow = leaders policy stmts flow := by
    simp only [leaders, List.zipIdx_map, List.foldl_map, Prod.map, id, asked, List.isEmpty_map, List.length_map]
  simp only [compute, same, List.length_map]

/-! ### The table of locals -/

variable {new}

/-- Tests that agree on the members of a list find the same place in it. -/
theorem findIdx?_of_agree {p q : α → Bool} {xs : List α} (agree : ∀ x ∈ xs, p x = q x) :
    xs.findIdx? p = xs.findIdx? q := by
  induction xs with
  | nil => rfl
  | cons x xs ih =>
    rw [List.findIdx?_cons, List.findIdx?_cons, agree x List.mem_cons_self,
      ih fun y member => agree y (List.mem_cons_of_mem x member)]

namespace Locals

variable {names : Set String} {ls : Locals} {name : String}

def rename (new : String → String) (ls : Locals) : Locals :=
  ⟨ls.entries.map (LocalDecl.rename new)⟩

/-- All entries have a name among the given ones. -/
def Within (names : Set String) (ls : Locals) : Prop := ∀ e ∈ ls.entries, e.name ∈ names

theorem Within.add (within : Within names ls) {d : LocalDecl} (inside : d.name ∈ names) :
    Within names (ls.add d) := by
  unfold Locals.add
  split
  · exact within
  · intro e member
    rcases List.mem_append.mp member with old | last
    · exact within e old
    · rw [List.mem_singleton.mp last]
      exact inside

theorem add_rename (apart : Set.InjOn new names) (within : Within names ls) {d : LocalDecl}
    (inside : d.name ∈ names) : (ls.rename new).add (d.rename new) = (ls.add d).rename new := by
  -- an entry is new if no name compares equal: here two names could fall together
  have known : ((ls.rename new).entries.any fun e => e.name = (d.rename new).name) =
      ls.entries.any fun e => e.name = d.name := by
    rw [rename, List.any_map, Bool.eq_iff_iff, List.any_eq_true, List.any_eq_true]
    refine exists_congr fun e => and_congr_right fun member => ?_
    simp only [Function.comp_apply, decide_eq_true_eq]
    exact apart.eq_iff (within e member) inside
  simp only [add, known]
  split
  · rfl
  · simp [rename]

theorem foldl_add_rename (apart : Set.InjOn new names) (within : Within names ls)
    {decls : List LocalDecl} (inside : ∀ d ∈ decls, d.name ∈ names) :
    Within names (decls.foldl add ls) ∧
      (decls.map (LocalDecl.rename new)).foldl add (ls.rename new) =
        (decls.foldl add ls).rename new := by
  induction decls generalizing ls with
  | nil => exact ⟨within, rfl⟩
  | cons d decls ih =>
    have here := inside d List.mem_cons_self
    rw [List.map_cons, List.foldl_cons, List.foldl_cons, add_rename apart within here]
    exact ih (within.add here) fun e member => inside e (List.mem_cons_of_mem d member)

theorem mentions_rename (s : Stmt) :
    mentions (s.rename new) = (mentions s).map (LocalDecl.rename new) := by
  change (s.rename new).names.map _ = (s.names.map _).map _
  rw [Stmt.names_rename, List.map_map, List.map_map]
  rfl

theorem mentions_names (s : Stmt) : (mentions s).map (·.name) = s.names := by
  rw [mentions, List.map_map]
  exact List.map_id s.names

theorem decls_rename (b : Body) : decls (b.rename new) = (decls b).map (LocalDecl.rename new) := by
  simp only [decls, Body.rename, Instruction.rename, List.map_append, List.flatMap_map,
    List.map_flatMap, mentions_rename]

theorem decls_names (b : Body) : (decls b).map (·.name) = b.names := by
  simp only [decls, Body.names, Body.stmts, List.map_append, List.map_flatMap, List.flatMap_map,
    mentions_names]

/-- Collecting the locals and renaming them may be done in either order. -/
theorem collect_rename {b : Body} (apart : Set.InjOn new {name | name ∈ b.names}) :
    Within {name | name ∈ b.names} (collect b) ∧
      collect (b.rename new) = (collect b).rename new := by
  have inside : ∀ d ∈ decls b, d.name ∈ b.names := by
    intro d member
    rw [← decls_names]
    exact List.mem_map_of_mem member
  have collected : collect (b.rename new) = (decls (b.rename new)).foldl add ⟨[]⟩ := rfl
  rw [collected, decls_rename]
  exact foldl_add_rename apart (by simp [Within]) inside

theorem id?_rename (apart : Set.InjOn new names) (within : Within names ls) (inside : name ∈ names) :
    (ls.rename new).id? (new name) = ls.id? name := by
  rw [id?, rename, List.findIdx?_map]
  refine findIdx?_of_agree fun e member => ?_
  rw [Function.comp_apply, decide_eq_decide]
  exact apart.eq_iff (within e member) inside

@[simp] theorem count_rename (ls : Locals) : (ls.rename new).count = ls.count := by
  simp [count, rename]

@[simp] theorem typeOf_rename (ls : Locals) (v : Nat) : (ls.rename new).typeOf v = ls.typeOf v := by
  simp only [typeOf, rename, List.getElem?_map, Option.map_map]
  rfl

theorem entry_of_lt {v : Nat} (bound : v < ls.count) : ∃ e ∈ ls.entries, ls.entries[v]? = some e :=
  ⟨_, List.getElem_mem bound, List.getElem?_eq_getElem bound⟩

theorem nameOf_rename {v : Nat} (bound : v < ls.count) :
    (ls.rename new).nameOf v = new (ls.nameOf v) := by
  obtain ⟨e, _, there⟩ := entry_of_lt bound
  simp only [nameOf, rename, List.getElem?_map, there, Option.map_some, Option.getD_some]
  rfl

theorem Within.nameOf (within : Within names ls) {v : Nat} (bound : v < ls.count) :
    ls.nameOf v ∈ names := by
  obtain ⟨e, member, there⟩ := entry_of_lt bound
  simp only [Locals.nameOf, there, Option.map_some, Option.getD_some]
  exact within e member

end Locals

/-! ### Writes and reads -/

theorem Body.mem_names {b : Body} {s : Stmt} (member : s ∈ b.stmts) {name : String}
    (occurs : name ∈ s.names) : name ∈ b.names :=
  List.mem_append_right _ (List.mem_flatMap.mpr ⟨s, member, occurs⟩)

theorem Access.compute_rename {b : Body} (apart : Set.InjOn new {name | name ∈ b.names}) :
    compute (b.rename new) (.collect (b.rename new)) = compute b (.collect b) := by
  obtain ⟨within, collected⟩ := Locals.collect_rename apart
  have number {i : Instruction} (member : i ∈ b.code) {name : String} (occurs : name ∈ i.stmt.names) :
      ((Locals.collect b).rename new).id? (new name) = (Locals.collect b).id? name :=
    Locals.id?_rename apart within (Body.mem_names (List.mem_map_of_mem member) occurs)
  rw [collected]
  simp only [compute, Body.rename, List.map_map, Access.mk.injEq]
  constructor
  · refine List.map_congr_left fun i member => ?_
    simp only [Function.comp_apply, Instruction.rename, Stmt.definedLocal?_rename]
    cases defined : i.stmt.definedLocal? with
    | none => rfl
    | some name => exact number member (by simp [Stmt.names, defined])
  · refine List.map_congr_left fun i member => congrArg List.eraseDups ?_
    simp only [Instruction.rename, Stmt.usedLocals_rename, List.filterMap_map]
    refine List.filterMap_congr fun name used => ?_
    exact number member (List.mem_append_right _ used)

theorem Stmt.operandIndex?_rename {names : Set String} {s : Stmt} {name : String}
    (apart : Set.InjOn new names) (occurring : ∀ other ∈ s.names, other ∈ names)
    (inside : name ∈ names) : (s.rename new).operandIndex? (new name) = s.operandIndex? name := by
  rw [operandIndex?, operands_rename, List.findIdx?_map]
  refine findIdx?_of_agree fun operand member => ?_
  rw [Function.comp_apply, decide_eq_decide]
  cases operand with
  | constant ty text => simp [Operand.rename, Operand.local?]
  | localVar other =>
    have used : other ∈ s.names := List.mem_append_right _ (mem_usedLocals.mpr member)
    simp only [Operand.rename, Operand.local?, Option.some.injEq]
    exact apart.eq_iff (occurring other used) inside

end ProgramDependence
