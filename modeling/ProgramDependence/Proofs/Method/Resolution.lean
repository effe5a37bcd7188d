import ProgramDependence.Labelling.Block
import ProgramDependence.Proofs.Locals.Exact
import ProgramDependence.Proofs.Method.Links

/-! Expression trees are what the locals of a block stand for. Going back from a place in the block, a local
stands for the right side of what gave it a value last, with the locals in it standing for what they stood for
there. The trees are built going forward, one statement after the other. -/
namespace ProgramDependence

def Stmt.rightSide? : Stmt → Option Expr
  | .identity _ value | .assign _ value => some value
  | _ => none

namespace Body

variable {b : Body} {block : Block} {name : String} {value : Expr} {d i : Nat}

/-- What an instruction gives a local, if that is the one it writes. -/
def gives? (b : Body) (i : Nat) (name : String) : Option Expr :=
  b.stmts[i]?.bind fun s => if s.definedLocal? = some name then s.rightSide? else none

/-- The last instruction of the block before `i` that writes a local, and what it gives it. -/
def lastGiven? (b : Body) (block : Block) (i : Nat) (name : String) : Option (Nat × Expr) :=
  (block.instructions.filter (· < i)).reverse.findSome? fun d => (b.gives? d name).map (d, ·)

theorem lastGiven?_lt (found : b.lastGiven? block i name = some (d, value)) : d < i := by
  obtain ⟨k, member, given⟩ := List.exists_of_findSome?_eq_some found
  obtain ⟨_, _, same⟩ := Option.map_eq_some_iff.mp given
  cases same
  simpa using (List.mem_filter.mp (List.mem_reverse.mp member)).2

/-- What a local stands for at a place in the block. -/
def resolved (b : Body) (block : Block) (i : Nat) (name : String) : Tree :=
  match _found : b.lastGiven? block i name with
  | none => .leaf (b.typeOf name)
  | some (d, value) => value.tree (b.resolved block d)
termination_by i
decreasing_by exact lastGiven?_lt _found

theorem resolved_eq (b : Body) (block : Block) (i : Nat) (name : String) :
    b.resolved block i name =
      ((b.lastGiven? block i name).map fun last => last.2.tree (b.resolved block last.1)).getD
        (.leaf (b.typeOf name)) := by
  rw [resolved]
  cases b.lastGiven? block i name <;> rfl

/-- The condition of a branch, its locals shown by type. -/
def conditionAt (b : Body) (i : Nat) : String :=
  match b.stmts[i]? with
  | some (.branch condition _) => (condition.tree fun name => .leaf (b.typeOf name)).render
  | _ => ""

/-- A call made for its effect, as it stands at its own place. -/
def callAt? (b : Body) (block : Block) (i : Nat) : Option String :=
  match b.stmts[i]? with
  | some (.call expr) => some (expr.tree (b.resolved block i)).render
  | _ => none

/-! ### Places in a block -/

theorem before_eq (low : block.first ≤ i) (high : i ≤ block.last + 1) :
    block.instructions.filter (· < i) = List.range' block.first (i - block.first) := by
  have parts : block.instructions =
      List.range' block.first (i - block.first) ++ List.range' i (block.last + 1 - i) := by
    have start : block.first + (i - block.first) = i := by omega
    have count : i - block.first + (block.last + 1 - i) = block.last + 1 - block.first := by omega
    have joined := List.range'_append_1 (s := block.first) (m := i - block.first) (n := block.last + 1 - i)
    rw [start, count] at joined
    exact joined.symm
  have early : (List.range' block.first (i - block.first)).filter (· < i) =
      List.range' block.first (i - block.first) := by
    apply List.filter_eq_self.mpr
    intro k member
    rw [List.mem_range'_1] at member
    exact decide_eq_true (by omega)
  have late : (List.range' i (block.last + 1 - i)).filter (· < i) = [] := by
    apply List.filter_eq_nil_iff.mpr
    intro k member
    rw [List.mem_range'_1] at member
    simpa using member.1
  rw [parts, List.filter_append, early, late, List.append_nil]

theorem before_succ (low : block.first ≤ i) (high : i ≤ block.last) :
    block.instructions.filter (· < i + 1) = block.instructions.filter (· < i) ++ [i] := by
  rw [before_eq (by omega) (by omega), before_eq low (by omega), Nat.succ_sub low, List.range'_1_concat]
  have last : block.first + (i - block.first) = i := by omega
  rw [last]

theorem before_end (block : Block) :
    block.instructions.filter (· < block.last + 1) = block.instructions := by
  apply List.filter_eq_self.mpr
  intro k member
  exact decide_eq_true (Nat.lt_succ_of_le (Partition.mem_instructions.mp member).2)

theorem lastGiven?_succ (low : block.first ≤ i) (high : i ≤ block.last) (name : String) :
    b.lastGiven? block (i + 1) name = ((b.gives? i name).map (i, ·)).or (b.lastGiven? block i name) := by
  rw [lastGiven?, before_succ low high, List.reverse_append, List.reverse_singleton, List.singleton_append,
    List.findSome?_cons]
  cases b.gives? i name <;> rfl

theorem gives?_of_there {s : Stmt} (there : b.stmts[i]? = some s) (name : String) :
    b.gives? i name = if s.definedLocal? = some name then s.rightSide? else none := by
  rw [gives?, there]
  rfl

theorem gives?_isSome_iff : (b.gives? i name).isSome = true ↔ b.Defines i name := by
  rw [Defines, gives?]
  cases b.stmts[i]? with
  | none => simp
  | some s =>
    have right (defines : s.definedLocal? = some name) : s.rightSide?.isSome = true := by
      cases s <;> first | rfl | cases defines
    by_cases defines : s.definedLocal? = some name
    · simp [defines, right defines]
    · simp [defines]

theorem lastGiven?_isSome_iff :
    (b.lastGiven? block (block.last + 1) name).isSome = true ↔ ∃ d ∈ block.instructions, b.Defines d name := by
  simp only [lastGiven?, before_end, List.findSome?_isSome_iff, List.mem_reverse, Option.isSome_map,
    gives?_isSome_iff]

end Body

namespace Symbolic

open Body

variable {b : Body} {block : Block} {name : String} {value : Expr} {i : Nat} {s : State}

/-- A local that is nowhere mentioned is not declared either. -/
theorem leafOf_collect (b : Body) (name : String) : leafOf (.collect b) name = .leaf (b.typeOf name) := by
  rw [leafOf]
  cases found : (Locals.collect b).id? name with
  | some v => rw [Option.map_some, Option.getD_some, Locals.typeOf_id found]
  | none =>
    have undeclared : (b.locals.find? fun d => d.name = name) = none := by
      apply List.find?_eq_none.mpr
      intro d declared
      simp only [decide_eq_true_eq]
      rintro rfl
      obtain ⟨v, known⟩ := Locals.id?_isSome (b := b)
        (List.mem_map_of_mem (List.mem_append_left _ declared))
      cases found.symm.trans known
    rw [Body.typeOf, undeclared]
    rfl

/-- Everything in the block before `i` was gone through. -/
structure Traced (b : Body) (block : Block) (i : Nat) (s : State) : Prop where
  given : ∀ name, s.given.lookup name =
    (b.lastGiven? block i name).map fun last => last.2.tree (b.resolved block last.1)
  calls : s.calls = String.join ((block.instructions.filter (· < i)).filterMap (b.callAt? block))

theorem Traced.resolve (traced : Traced b block i s) : s.resolve (.collect b) = b.resolved block i := by
  funext name
  rw [State.resolve, traced.given, leafOf_collect, resolved_eq]

theorem Traced.start (b : Body) (block : Block) : Traced b block block.first {} := by
  have nothing : block.instructions.filter (· < block.first) = [] := by
    apply List.filter_eq_nil_iff.mpr
    intro k member
    simpa using (Partition.mem_instructions.mp member).1
  exact ⟨fun name => by rw [lastGiven?, nothing]; rfl, by rw [nothing]; rfl⟩

/-- A statement gives a local a value, makes a call for its effect, or leaves no trace. -/
theorem step_cases (ls : Locals) (s : State) (st : Stmt) :
    (∃ name value, st.definedLocal? = some name ∧ st.rightSide? = some value ∧
      (∀ expr, st ≠ .call expr) ∧ s.step ls st = s.give ls name value) ∨
    (∃ expr, st = .call expr) ∨
    (st.definedLocal? = none ∧ (∀ expr, st ≠ .call expr) ∧ s.step ls st = s) := by
  cases st with
  | identity name value => exact .inl ⟨name, value, rfl, rfl, nofun, rfl⟩
  | assign lhs value =>
    cases lhs with
    | localVar name => exact .inl ⟨name, value, rfl, rfl, nofun, rfl⟩
    | _ => exact .inr (.inr ⟨rfl, nofun, rfl⟩)
  | call expr => exact .inr (.inl ⟨expr, rfl⟩)
  | _ => exact .inr (.inr ⟨rfl, nofun, rfl⟩)

theorem callAt?_of_not_call {st : Stmt} (there : b.stmts[i]? = some st) (not : ∀ expr, st ≠ .call expr) :
    b.callAt? block i = none := by
  rw [callAt?, there]
  cases st with
  | call expr => exact absurd rfl (not expr)
  | _ => rfl

section Step

variable {st : Stmt} (traced : Traced b block i s) (low : block.first ≤ i) (high : i ≤ block.last)
include traced low high

theorem Traced.calls_succ :
    s.calls ++ (b.callAt? block i).getD "" =
      String.join ((block.instructions.filter (· < i + 1)).filterMap (b.callAt? block)) := by
  rw [before_succ low high, List.filterMap_append, traced.calls]
  cases found : b.callAt? block i <;> simp [found]

variable (there : b.stmts[i]? = some st)
include there

theorem Traced.give (writes : st.definedLocal? = some name) (right : st.rightSide? = some value)
    (not : ∀ expr, st ≠ .call expr) : Traced b block (i + 1) (s.give (.collect b) name value) := by
  constructor
  case given =>
    intro other
    rw [lastGiven?_succ low high, gives?_of_there there, writes, right, State.give, traced.resolve,
      List.lookup_cons]
    by_cases same : other = name
    · subst same
      simp
    · have differs : (other == name) = false := by simpa using same
      have elsewhere : ¬some name = some other := fun equal => same (Option.some.inj equal).symm
      simp only [differs, traced.given, if_neg elsewhere, Option.map_none, Option.none_or]
  case calls =>
    rw [← traced.calls_succ low high, callAt?_of_not_call there not]
    exact String.append_empty.symm

theorem Traced.given_succ (writes : st.definedLocal? = none) (name : String) : s.given.lookup name =
    (b.lastGiven? block (i + 1) name).map fun last => last.2.tree (b.resolved block last.1) := by
  rw [lastGiven?_succ low high, gives?_of_there there, writes]
  exact traced.given name

theorem Traced.step : Traced b block (i + 1) (s.step (.collect b) st) := by
  rcases step_cases (.collect b) s st with ⟨name, value, writes, right, not, step⟩ | ⟨expr, rfl⟩ |
    ⟨writes, not, step⟩
  · rw [step]
    exact traced.give low high there writes right not
  · have call : b.callAt? block i = some (expr.tree (s.resolve (.collect b))).render := by
      rw [callAt?, there, traced.resolve]
    refine ⟨traced.given_succ low high there rfl, ?_⟩
    rw [← traced.calls_succ low high, call]
    rfl
  · rw [step]
    refine ⟨traced.given_succ low high there writes, ?_⟩
    rw [← traced.calls_succ low high, callAt?_of_not_call there not]
    exact String.append_empty.symm

end Step

/-- What is known after the statements of the block from `i` on. -/
theorem Traced.run (traced : Traced b block i s) (low : block.first ≤ i) (count : Nat)
    (high : i + count ≤ block.last + 1) (inside : block.last < b.size) :
    Traced b block (i + count) ((((List.range' i count).filterMap fun k => b.code[k]?).map (·.stmt)).foldl
      (State.step (.collect b)) s) := by
  induction count generalizing i s with
  | zero => exact traced
  | succ count ih =>
    have bound : i < b.code.length := by
      rw [Body.size] at inside
      omega
    have there : b.stmts[i]? = some b.code[i].stmt := by simp [Body.stmts, bound]
    have next := ih (traced.step low (by omega) there) (by omega) (by omega)
    rw [Nat.add_assoc, Nat.add_comm 1] at next
    rw [List.range'_succ, List.filterMap_cons_some (List.getElem?_eq_getElem bound)]
    exact next

end Symbolic

namespace Body.Analyzed

variable {policy : Policy} {b : Body} {a : Analysis} {block : Block}

theorem bounds (known : Analyzed policy b a) (member : block ∈ a.blocks) :
    block.first ≤ block.last ∧ block.last < b.size := by
  obtain ⟨k, there⟩ := List.getElem?_of_mem member
  have bounds := known.tiles.bounds there
  omega

theorem traced (known : Analyzed policy b a) (member : block ∈ a.blocks) :
    Symbolic.Traced b block (block.last + 1)
      ((a.stmtsOf block).foldl (Symbolic.State.step a.locals) {}) := by
  obtain ⟨ordered, inside⟩ := known.bounds member
  have run := (Symbolic.Traced.start b block).run (Nat.le_refl _) (block.last + 1 - block.first)
    (by omega) inside
  have done : block.first + (block.last + 1 - block.first) = block.last + 1 := by omega
  rw [done] at run
  rw [Analysis.stmtsOf, Analysis.codeOf, known.body, known.locals]
  exact run

theorem getLast?_stmtsOf (known : Analyzed policy b a) (member : block ∈ a.blocks) :
    (a.stmtsOf block).getLast? = b.stmts[block.last]? := by
  obtain ⟨ordered, inside⟩ := known.bounds member
  have ends : block.instructions = block.instructions.filter (· < block.last) ++ [block.last] := by
    rw [← before_succ ordered (Nat.le_refl _), before_end]
  have there : b.code[block.last]? = some b.code[block.last] := List.getElem?_eq_getElem inside
  rw [Analysis.stmtsOf, Analysis.codeOf, known.body, ends, List.filterMap_append, List.map_append,
    List.filterMap_cons_some there]
  simp [Body.stmts, there]

end Body.Analyzed

theorem Symbolic.conditionText_collect (b : Body) (i : Nat) :
    conditionText (.collect b) b.stmts[i]? = b.conditionAt i := by
  have leaves : leafOf (.collect b) = fun name => .leaf (b.typeOf name) := funext (leafOf_collect b)
  rw [Body.conditionAt]
  cases b.stmts[i]? with
  | none => rfl
  | some st =>
    cases st with
    | branch condition target => rw [conditionText, leaves]
    | _ => rfl

/-- The live locals with a value from the block are those that stand for one at its end. -/
theorem Symbolic.Traced.values {b : Body} {block : Block} {i : Nat} {s : State} (traced : Traced b block i s)
    (ls : Locals) (live : List Nat) :
    ((live.filterMap fun v => s.given.lookup (ls.nameOf v)).map fun tree => tree.render ++ ";") =
      (live.filter fun v => (b.lastGiven? block i (ls.nameOf v)).isSome).map fun v =>
        (b.resolved block i (ls.nameOf v)).render ++ ";" := by
  induction live with
  | nil => rfl
  | cons v live ih =>
    cases found : b.lastGiven? block i (ls.nameOf v) with
    | none =>
      have nothing : s.given.lookup (ls.nameOf v) = none := by rw [traced.given, found, Option.map_none]
      simp only [List.filterMap_cons, nothing, List.filter_cons, found, Option.isSome_none,
        Bool.false_eq_true, ↓reduceIte, ih]
    | some last =>
      have stands : s.given.lookup (ls.nameOf v) = some (b.resolved block i (ls.nameOf v)) := by
        rw [traced.given, Body.resolved_eq, found, Option.map_some, Option.getD_some]
      simp only [List.filterMap_cons, stands, List.filter_cons, found, Option.isSome_some, ↓reduceIte,
        List.map_cons, ih]

/-- The tree label of a block is what the block comes to. First stand the locals that it writes and that are
awaited after it, in the order of their numbers, as they are resolved at its end; then the condition of its
branch, not resolved; then its calls, each resolved where it stands. -/
theorem tree_label_resolved (b : Body) (inRange : b.InRange) (policy : Policy) :
    ∃ a, b.analyze policy = .ok a ∧ ∀ block ∈ a.blocks, ∃ left : List Nat, left.Pairwise (· < ·) ∧
      (∀ v, v ∈ left ↔ ∃ name, a.locals.id? name = some v ∧
        (∃ d ∈ block.instructions, b.Defines d name) ∧ b.Awaits a.flow block.last name) ∧
      a.label .trees block =
        String.join (left.map fun v =>
          (b.resolved block (block.last + 1) (a.locals.nameOf v)).render ++ ";") ++
        b.conditionAt block.last ++
        String.join (block.instructions.filterMap (b.callAt? block)) := by
  obtain ⟨a, ok⟩ := Body.analyze_of_inRange policy inRange
  have known := Body.analyzed ok
  refine ⟨a, ok, fun block member => ?_⟩
  have traced := known.traced member
  refine ⟨(a.liveAfter block).filter fun v =>
    (b.lastGiven? block (block.last + 1) (a.locals.nameOf v)).isSome, ?_, ?_, ?_⟩
  · rw [Analysis.liveAfter, known.liveness]
    exact (Liveness.after_ascending known.closed _ _).filter _
  · intro v
    rw [List.mem_filter, Body.lastGiven?_isSome_iff, Analysis.liveAfter, known.liveness, known.access,
      Body.mem_liveAfter known.closed, known.locals]
    constructor
    · rintro ⟨⟨name, named, awaits⟩, defined⟩
      rw [Locals.nameOf_id (Locals.collect_distinct b) named] at defined
      exact ⟨name, named, defined, awaits⟩
    · rintro ⟨name, named, defined, awaits⟩
      rw [Locals.nameOf_id (Locals.collect_distinct b) named]
      exact ⟨⟨name, named, awaits⟩, defined⟩
  · rw [Analysis.label, Symbolic.label, traced.values, known.getLast?_stmtsOf member, traced.calls,
      Body.before_end, known.locals, Symbolic.conditionText_collect]

/-- A loop that gives one local what it was plus one, and another, undeclared, a value twice. -/
def accumulating : Body where
  locals := [⟨"i", "int"⟩, ⟨"n", "int"⟩]
  code := [
    ⟨.identity "i" (.parameter 0 "int"), .zero⟩,
    ⟨.assign (.localVar "t") (.binary "+" (.localVar "i") (.localVar "n")), .zero⟩,
    ⟨.assign (.localVar "i") (.binary "+" (.localVar "i") (.constant "int" "1")), .zero⟩,
    ⟨.assign (.localVar "t") (.binary "*" (.localVar "t") (.localVar "i")), .zero⟩,
    ⟨.branch (.binary "<" (.localVar "i") (.localVar "n")) 1, .zero⟩,
    ⟨.ret (some (.localVar "t")), .zero⟩]

theorem accumulating_label : accumulating.InRange ∧ ∃ a, accumulating.analyze .expanded = .ok a ∧
    ⟨1, 4⟩ ∈ a.blocks ∧
    a.label .trees ⟨1, 4⟩ =
      "2:+,0:int,1:int,0:1;2:*,2:+,0:int,0:int,2:+,0:int,1:int,0:1;2:<,0:int,0:int" ∧
    ∃ left : List Nat, left.Pairwise (· < ·) ∧
      (∀ v, v ∈ left ↔ ∃ name, a.locals.id? name = some v ∧
        (∃ d ∈ Block.instructions ⟨1, 4⟩, accumulating.Defines d name) ∧
        accumulating.Awaits a.flow 4 name) ∧
      a.label .trees ⟨1, 4⟩ =
        String.join (left.map fun v =>
          (accumulating.resolved ⟨1, 4⟩ 5 (a.locals.nameOf v)).render ++ ";") ++
        accumulating.conditionAt 4 ++
        String.join ((Block.instructions ⟨1, 4⟩).filterMap (accumulating.callAt? ⟨1, 4⟩)) := by
  have inRange : accumulating.InRange := by decide
  obtain ⟨a, ok, labels⟩ := tree_label_resolved accumulating inRange .expanded
  refine ⟨inRange, a, ok, ?_⟩
  have member : ⟨1, 4⟩ ∈ a.blocks := by
    cases ok
    decide
  have shown : a.label .trees ⟨1, 4⟩ =
      "2:+,0:int,1:int,0:1;2:*,2:+,0:int,0:int,2:+,0:int,1:int,0:1;2:<,0:int,0:int" := by
    cases ok
    rfl
  exact ⟨member, shown, labels _ member⟩

end ProgramDependence
