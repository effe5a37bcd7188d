import ProgramDependence.Proofs.Locals.Renaming
import ProgramDependence.Proofs.Method.DataDependence

/-! An analysis does not see what the locals of a body are called. Apart from the listing of a block,
which shows the names, all that is computed of a renamed body is what is computed of the body. -/
namespace ProgramDependence

variable {new : String → String} {names : Set String} {name : String}

/-! ### Expression trees -/

namespace Expr

variable {resolve resolve' : String → Tree}

mutual

theorem tree_rename (e : Expr)
    (agree : ∀ name, .localVar name ∈ e.operands → resolve' (new name) = resolve name) :
    (e.rename new).tree resolve' = e.tree resolve := by
  match e, agree with
  | .localVar name, agree => exact agree name List.mem_cons_self
  | .constant .., _ | .parameter .., _ | .receiver _, _ | .caught _, _ | .staticField .., _
  | .instanceField .., _ | .element .., _ | .create _, _ | .staticCall .., _
  | .virtualCall .., _ => rfl
  | .binary _ lhs rhs, agree =>
    have left := tree_rename lhs fun name read => agree name (List.mem_append_left _ read)
    have right := tree_rename rhs fun name read => agree name (List.mem_append_right _ read)
    simp only [rename, tree, left, right]
  | .negate operand, agree | .length operand, agree | .cast _ operand, agree
  | .instanceOf _ operand, agree | .createArray _ operand, agree =>
    simp only [rename, tree, tree_rename operand agree]
  | .createGrid _ sizes, agree => simp only [rename, tree, trees_rename sizes agree]

theorem trees_rename (es : List Expr)
    (agree : ∀ name, .localVar name ∈ operandsOf es → resolve' (new name) = resolve name) :
    trees resolve' (renameAll new es) = trees resolve es := by
  match es, agree with
  | [], _ => rfl
  | e :: es, agree =>
    have first := tree_rename e fun name read => agree name (List.mem_append_left _ read)
    have others := trees_rename es fun name read => agree name (List.mem_append_right _ read)
    simp only [renameAll, trees, first, others]

end

theorem token_rename (e : Expr) : (e.rename new).token = e.token := by
  cases e <;> rfl

end Expr

namespace Symbolic

variable {ls : Locals} {s : State}

def State.rename (new : String → String) (s : State) : State :=
  { s with given := s.given.map (Prod.map new id) }

/-- Only locals among the given ones have been given a value. -/
def State.Within (names : Set String) (s : State) : Prop := ∀ p ∈ s.given, p.1 ∈ names

theorem lookup_rename (apart : Set.InjOn new names) (inside : name ∈ names)
    {given : List (String × Tree)} (within : ∀ p ∈ given, p.1 ∈ names) :
    (given.map (Prod.map new id)).lookup (new name) = given.lookup name := by
  induction given with
  | nil => rfl
  | cons p given ih =>
    have same : (new name == new p.1) = (name == p.1) := by
      rw [Bool.eq_iff_iff, beq_iff_eq, beq_iff_eq]
      exact apart.eq_iff inside (within p List.mem_cons_self)
    rw [List.map_cons, List.lookup_cons, List.lookup_cons, Prod.map_fst, same,
      ih fun q member => within q (List.mem_cons_of_mem p member)]
    rfl

section

variable (apart : Set.InjOn new names) (known : ls.Within names)
include apart known

theorem leafOf_rename (inside : name ∈ names) :
    leafOf (ls.rename new) (new name) = leafOf ls name := by
  have types : (ls.rename new).typeOf = ls.typeOf := funext ls.typeOf_rename
  rw [leafOf, leafOf, Locals.id?_rename apart known inside, types]

theorem resolve_rename (within : s.Within names) (inside : name ∈ names) :
    (s.rename new).resolve (ls.rename new) (new name) = s.resolve ls name := by
  rw [State.resolve, State.resolve, State.rename, lookup_rename apart inside within,
    leafOf_rename apart known inside]

/-- The tree of an expression that reads known locals only. -/
theorem tree_resolve_rename (within : s.Within names) {e : Expr}
    (reads : ∀ name, .localVar name ∈ e.operands → name ∈ names) :
    (e.rename new).tree ((s.rename new).resolve (ls.rename new)) = e.tree (s.resolve ls) :=
  e.tree_rename fun name read => resolve_rename apart known within (reads name read)

theorem give_rename (within : s.Within names) (inside : name ∈ names) {e : Expr}
    (reads : ∀ name, .localVar name ∈ e.operands → name ∈ names) :
    (s.give ls name e).Within names ∧
      (s.rename new).give (ls.rename new) (new name) (e.rename new) =
        (s.give ls name e).rename new := by
  constructor
  · intro p member
    rcases List.mem_cons.mp member with rfl | old
    · exact inside
    · exact within p old
  · simp only [State.give, tree_resolve_rename apart known within reads]
    rfl

theorem step_rename (within : s.Within names) {st : Stmt}
    (occurring : ∀ name ∈ st.names, name ∈ names) :
    (s.step ls st).Within names ∧
      (s.rename new).step (ls.rename new) (st.rename new) = (s.step ls st).rename new := by
  have reads : ∀ name, .localVar name ∈ st.operands → name ∈ names := fun name read =>
    occurring name (List.mem_append_right _ (Stmt.mem_usedLocals.mpr read))
  cases st with
  | identity name value =>
    exact give_rename apart known within (occurring name List.mem_cons_self) reads
  | assign lhs value =>
    cases lhs with
    | localVar name =>
      exact give_rename apart known within (occurring name List.mem_cons_self) reads
    -- a field or an element that is written gives no local a value
    | _ => exact ⟨within, rfl⟩
  | call expr =>
    refine ⟨within, ?_⟩
    simp only [Stmt.rename, State.step, tree_resolve_rename apart known within reads]
    rfl
  | _ => exact ⟨within, rfl⟩

theorem foldl_step_rename (within : s.Within names) {stmts : List Stmt}
    (occurring : ∀ st ∈ stmts, ∀ name ∈ st.names, name ∈ names) :
    (stmts.foldl (State.step ls) s).Within names ∧
      (stmts.map (Stmt.rename new)).foldl (State.step (ls.rename new)) (s.rename new) =
        (stmts.foldl (State.step ls) s).rename new := by
  induction stmts generalizing s with
  | nil => exact ⟨within, rfl⟩
  | cons st stmts ih =>
    obtain ⟨next, step⟩ := step_rename apart known within (occurring st List.mem_cons_self)
    rw [List.map_cons, List.foldl_cons, List.foldl_cons, step]
    exact ih next fun other member => occurring other (List.mem_cons_of_mem st member)

theorem conditionText_rename {last : Option Stmt}
    (occurring : ∀ st ∈ last, ∀ name ∈ st.names, name ∈ names) :
    conditionText (ls.rename new) (last.map (Stmt.rename new)) = conditionText ls last := by
  cases last with
  | none => rfl
  | some st =>
    cases st with
    | branch condition target =>
      refine congrArg Tree.render (condition.tree_rename fun name read => ?_)
      refine leafOf_rename apart known (occurring _ rfl name ?_)
      exact List.mem_append_right _ (Stmt.mem_usedLocals.mpr read)
    | _ => rfl

theorem label_rename {stmts : List Stmt} {live : List Nat}
    (occurring : ∀ st ∈ stmts, ∀ name ∈ st.names, name ∈ names) (bound : ∀ v ∈ live, v < ls.count) :
    label (ls.rename new) (stmts.map (Stmt.rename new)) live = label ls stmts live := by
  have start : State.Within names {} := by simp [State.Within]
  obtain ⟨within, final⟩ := foldl_step_rename apart known start occurring
  have values : (live.filterMap fun v => ((stmts.foldl (State.step ls) {}).rename new).given.lookup
        ((ls.rename new).nameOf v)) =
      live.filterMap fun v => (stmts.foldl (State.step ls) {}).given.lookup (ls.nameOf v) := by
    refine List.filterMap_congr fun v member => ?_
    rw [Locals.nameOf_rename (bound v member)]
    exact lookup_rename apart (known.nameOf (bound v member)) within
  have condition := conditionText_rename apart known
    fun st member => occurring st (List.mem_of_getLast? member)
  have empty : State.rename new {} = {} := rfl
  rw [empty] at final
  simp only [label, final, values, List.getLast?_map, condition]
  rfl

end

end Symbolic

/-! ### Labels and kinds -/

theorem Stmt.token_rename (s : Stmt) : (s.rename new).token = s.token := by
  cases s with
  | assign lhs rhs =>
    cases lhs with
    | localVar _ => exact Expr.token_rename rhs
    | _ => cases rhs <;> rfl
  | identity _ value | branch value _ | call value => exact Expr.token_rename value
  | _ => rfl

namespace Analysis

theorem kindOf_rename (stmts : List Stmt) : kindOf (stmts.map (Stmt.rename new)) = kindOf stmts := by
  have calls : ((stmts.map (Stmt.rename new)).any fun s => s.call?.isSome) =
      stmts.any fun s => s.call?.isSome := by
    simp only [List.any_map, Function.comp_def, Stmt.call?_rename, Option.isSome_map]
  simp only [kindOf, List.getLast?_map, calls]
  cases stmts.getLast? with
  | none => rfl
  | some s => cases s <;> rfl

def rename (new : String → String) (a : Analysis) : Analysis :=
  { a with body := a.body.rename new, locals := a.locals.rename new }

theorem codeOf_rename (a : Analysis) (block : Block) :
    (a.rename new).codeOf block = (a.codeOf block).map (Instruction.rename new) := by
  simp only [codeOf, rename, Body.rename, List.getElem?_map, List.map_filterMap]

theorem stmtsOf_rename (a : Analysis) (block : Block) :
    (a.rename new).stmtsOf block = (a.stmtsOf block).map (Stmt.rename new) := by
  simp only [stmtsOf, codeOf_rename, List.map_map]
  rfl

theorem mem_stmtsOf {a : Analysis} {block : Block} {s : Stmt} (member : s ∈ a.stmtsOf block) :
    s ∈ a.body.stmts := by
  obtain ⟨instruction, listed, rfl⟩ := List.mem_map.mp member
  obtain ⟨i, _, there⟩ := List.mem_filterMap.mp listed
  exact List.mem_map_of_mem (List.mem_of_getElem? there)

end Analysis

/-- Renaming a body and analyzing it may be done in either order. -/
theorem Body.analyze_rename {b : Body} (policy : Policy)
    (apart : Set.InjOn new {name | name ∈ b.names}) :
    (b.rename new).analyze policy = (b.analyze policy).map (Analysis.rename new) := by
  obtain ⟨_, collected⟩ := Locals.collect_rename apart
  have access := Access.compute_rename apart
  rw [collected] at access
  simp only [analyze, flow?_rename, collected, access, stmts_rename, Partition.compute_rename]
  cases b.flow? with
  | error e => rfl
  | ok flow => rfl

/-! ### Data dependences -/

namespace Frame

variable (labelling : Labelling) (c : Class) (m : Method) (a : Analysis)

theorem constantsOf_rename (i : Instruction) :
    (ofAnalysis labelling c m (a.rename new)).constantsOf (i.rename new) =
      (ofAnalysis labelling c m a).constantsOf i := by
  simp only [constantsOf, Instruction.rename, Stmt.operands_rename, List.zipIdx_map,
    List.filterMap_map]
  refine List.filterMap_congr fun place _ => ?_
  obtain ⟨operand, index⟩ := place
  cases operand <;> rfl

theorem constantsIn_rename (block : Block) :
    (ofAnalysis labelling c m (a.rename new)).constantsIn block =
      (ofAnalysis labelling c m a).constantsIn block := by
  cases labelling with
  | trees =>
    simp only [constantsIn, ofAnalysis, Analysis.codeOf_rename, List.flatMap_map]
    congr 1
    exact funext (constantsOf_rename .trees c m a)
  | _ => rfl

end Frame

/-- The tag of the arc from a definition in the block with a number to a read, if one is drawn. -/
def Frame.tagOf? (f : Frame) (index d : Nat) (use : Nat × Nat) : Option String :=
  (f.dataArc index d use).bind fun arc => arc.toOption.map (·.tag)

/-- Two analyses that differ in nothing but the names of locals. -/
structure Analysis.Renamed (new : String → String) (a a' : Analysis) : Prop where
  flow : a'.flow = a.flow
  partition : a'.partition = a.partition
  access : a'.access = a.access
  liveness : a'.liveness = a.liveness
  reaching : Reaching.compute a'.flow a'.access = Reaching.compute a.flow a.access
  postDominance : PostDominance.compute a'.partition.graph = PostDominance.compute a.partition.graph
  frontiers : Frontiers.compute a'.partition.graph = Frontiers.compute a.partition.graph
  count : a'.locals.count = a.locals.count
  names : ∀ v < a.locals.count, a'.locals.nameOf v = new (a.locals.nameOf v)
  types : ∀ v, a'.locals.typeOf v = a.locals.typeOf v
  kinds : ∀ block, a'.blockKind block = a.blockKind block
  trees : ∀ block, a'.label .trees block = a.label .trees block
  operators : ∀ block, a'.label .operators block = a.label .operators block
  /-- Hoisted constants, each with the tag of the link to its block. -/
  constants : ∀ labelling c m block, (Frame.ofAnalysis labelling c m a').constantsIn block =
    (Frame.ofAnalysis labelling c m a).constantsIn block
  /-- A read further down the block of the definition stays inside it and gets no link. -/
  tags : ∀ labelling c m index d, ∀ use ∈ (Reaching.compute a.flow a.access).usesOf d,
    ¬(a.partition.owner use.1 = index ∧ d < use.1) →
      ∃ tag, (Frame.ofAnalysis labelling c m a).tagOf? index d use = some tag ∧
        (Frame.ofAnalysis labelling c m a').tagOf? index d use = some tag

namespace Body.Analyzed

variable {policy : Policy} {b : Body} {a : Analysis} {u v k index d : Nat}

theorem tagOf?_eq (known : Analyzed policy b a) {s : Stmt}
    (named : (Locals.collect b).id? name = some v) (there : b.stmts[u]? = some s)
    (place : s.operandIndex? name = some k) (leaves : ¬(a.partition.owner u = index ∧ d < u))
    (labelling : Labelling) (c : Class) (m : Method) :
    (Frame.ofAnalysis labelling c m a).tagOf? index d (u, v) =
      some (dataTag (a.locals.typeOf v) k) := by
  rw [Frame.tagOf?, Frame.dataArc_eq known named there place, if_neg leaves, known.locals,
    Locals.typeOf_id named]
  rfl

section

variable (apart : Set.InjOn new {name | name ∈ b.names}) (known : Analyzed policy b a)
include apart known

theorem trees_rename (block : Block) :
    (a.rename new).label .trees block = a.label .trees block := by
  have within := (Locals.collect_rename apart).1
  rw [← known.locals] at within
  have occurring : ∀ st ∈ a.stmtsOf block, ∀ name ∈ st.names, name ∈ b.names := by
    intro st member name occurs
    have listed := Analysis.mem_stmtsOf member
    rw [known.body] at listed
    exact mem_names listed occurs
  have bound : ∀ v ∈ a.liveAfter block, v < a.locals.count := by
    intro v live
    rw [Analysis.liveAfter, known.liveness, Liveness.mem_after known.closed, known.access] at live
    obtain ⟨r, reads, _⟩ := live
    obtain ⟨name, named⟩ := Access.exists_name_of_use reads
    rw [known.locals]
    exact Locals.id?_lt named
  rw [Analysis.label, Analysis.stmtsOf_rename]
  exact Symbolic.label_rename apart within occurring bound

/-- A read that a definition reaches has its local at the same place under either name. -/
theorem tags_rename (renamed : Analyzed policy (b.rename new) (a.rename new))
    {use : Nat × Nat} (reached : use ∈ (Reaching.compute a.flow a.access).usesOf d)
    (leaves : ¬(a.partition.owner use.1 = index ∧ d < use.1)) (labelling : Labelling) (c : Class)
    (m : Method) :
    ∃ tag, (Frame.ofAnalysis labelling c m a).tagOf? index d use = some tag ∧
      (Frame.ofAnalysis labelling c m (a.rename new)).tagOf? index d use = some tag := by
  obtain ⟨u, v⟩ := use
  obtain ⟨defined, reads, _⟩ := (Reaching.mem_usesOf known.closed).mp reached
  rw [known.access] at defined reads
  obtain ⟨name, named⟩ := Access.exists_name_of_def? defined
  obtain ⟨s, there, used⟩ := (Access.mem_usesAt named).mp reads
  obtain ⟨k, place⟩ := Stmt.exists_firstAt used
  have occurring : ∀ other ∈ s.names, other ∈ b.names := fun other =>
    mem_names (List.mem_of_getElem? there)
  have inside : name ∈ b.names :=
    occurring name (List.mem_append_right _ (Stmt.mem_usedLocals.mpr used))
  obtain ⟨within, collected⟩ := Locals.collect_rename apart
  have named' : (Locals.collect (b.rename new)).id? (new name) = some v := by
    rw [collected, Locals.id?_rename apart within inside, named]
  have there' : (b.rename new).stmts[u]? = some (s.rename new) := by
    rw [stmts_rename, List.getElem?_map, there, Option.map_some]
  have place' : (s.rename new).operandIndex? (new name) = some k := by
    rw [Stmt.operandIndex?_rename apart occurring inside, place]
  refine ⟨_, known.tagOf?_eq named there place leaves labelling c m, ?_⟩
  rw [renamed.tagOf?_eq named' there' place' leaves labelling c m]
  exact congrArg some (congrArg (dataTag · k) (a.locals.typeOf_rename v))

end

theorem isRenamed (apart : Set.InjOn new {name | name ∈ b.names}) (known : Analyzed policy b a)
    (renamed : Analyzed policy (b.rename new) (a.rename new)) : a.Renamed new (a.rename new) where
  flow := rfl
  partition := rfl
  access := rfl
  liveness := rfl
  reaching := rfl
  postDominance := rfl
  frontiers := rfl
  count := a.locals.count_rename
  names _ bound := Locals.nameOf_rename bound
  types := a.locals.typeOf_rename
  kinds block := by
    rw [Analysis.blockKind, Analysis.stmtsOf_rename]
    exact Analysis.kindOf_rename (a.stmtsOf block)
  trees := known.trees_rename apart
  operators block := by
    simp only [Analysis.label, Analysis.stmtsOf_rename, Stmt.tokens, List.map_map, Function.comp_def,
      Stmt.token_rename]
  constants labelling c m := Frame.constantsIn_rename labelling c m a
  tags labelling c m _ _ _ reached leaves :=
    known.tags_rename apart renamed reached leaves labelling c m

end Body.Analyzed

/-- Under new names, as long as no two locals of the body get the same one, the analysis of a body
fails in the same way or gives the same but for the names. What the instructions write and read and
the types of locals are the same either way. -/
theorem analyze_ignores_names (new : String → String) (policy : Policy) (b : Body)
    (apart : Set.InjOn new {name | name ∈ b.names}) :
    Access.compute (b.rename new) (.collect (b.rename new)) = Access.compute b (.collect b) ∧
    (∀ v, (Locals.collect (b.rename new)).typeOf v = (Locals.collect b).typeOf v) ∧
    ((∃ e, b.analyze policy = .error e ∧ (b.rename new).analyze policy = .error e) ∨
      ∃ a a', b.analyze policy = .ok a ∧ (b.rename new).analyze policy = .ok a' ∧
        a.Renamed new a') := by
  have commutes := Body.analyze_rename policy apart
  refine ⟨Access.compute_rename apart, ?_, ?_⟩
  · rw [(Locals.collect_rename apart).2]
    exact Locals.typeOf_rename _
  · cases analyzed : b.analyze policy with
    | error e =>
      rw [analyzed] at commutes
      exact .inl ⟨e, rfl, commutes⟩
    | ok a =>
      rw [analyzed] at commutes
      refine .inr ⟨a, a.rename new, rfl, commutes, ?_⟩
      exact (Body.analyzed analyzed).isRenamed apart (Body.analyzed commutes)

/-- A loop over a local that is declared twice and one that is not declared, with a constant whose
text is the name of a local. -/
def namesakes : Body where
  locals := [⟨"n", "int"⟩, ⟨"k", "long"⟩, ⟨"n", "byte"⟩]
  code := [
    ⟨.identity "n" (.parameter 0 "int"), .zero⟩,
    ⟨.assign (.localVar "k") (.constant "long" "n"), .zero⟩,
    ⟨.assign (.localVar "i") (.binary " + " (.localVar "k") (.localVar "n")), .zero⟩,
    ⟨.assign (.element (.localVar "a") (.localVar "i") "int") (.localVar "n"), .zero⟩,
    ⟨.branch (.binary " < " (.localVar "i") (.localVar "n")) 2, .zero⟩,
    ⟨.ret (some (.localVar "k")), .zero⟩]

/-- Exchanges two names and gives a third local the name of a fourth. Other names may fall
together. -/
def exchange (name : String) : String :=
  if name = "n" then "k" else if name = "k" then "n" else if name = "i" then "a" else "0"

theorem namesakes_exchanged : Set.InjOn exchange {name | name ∈ namesakes.names} ∧
    Access.compute (namesakes.rename exchange) (.collect (namesakes.rename exchange)) =
      ⟨[some 0, some 1, some 2, none, none, none], [[], [], [1, 0], [3, 2, 0], [2, 0], [1]]⟩ ∧
    (Locals.collect (namesakes.rename exchange)).entries.map (·.name) = ["k", "n", "a", "0"] ∧
    (∀ v, (Locals.collect (namesakes.rename exchange)).typeOf v =
      (Locals.collect namesakes).typeOf v) ∧
    ∃ a a', namesakes.analyze .expanded = .ok a ∧
      (namesakes.rename exchange).analyze .expanded = .ok a' ∧ a.Renamed exchange a' := by
  have apart : ∀ x ∈ namesakes.names, ∀ y ∈ namesakes.names, exchange x = exchange y → x = y := by
    decide
  have injective : Set.InjOn exchange {name | name ∈ namesakes.names} :=
    fun x mine y yours => apart x mine y yours
  have access : Access.compute namesakes (.collect namesakes) =
      ⟨[some 0, some 1, some 2, none, none, none], [[], [], [1, 0], [3, 2, 0], [2, 0], [1]]⟩ := by
    rfl
  obtain ⟨accessed, types, analyses⟩ := analyze_ignores_names exchange .expanded namesakes injective
  refine ⟨injective, accessed.trans access, by decide, types, ?_⟩
  obtain ⟨e, failed, _⟩ | analyzed := analyses
  · obtain ⟨a, analyzed⟩ := Body.analyze_of_inRange .expanded (b := namesakes) (by decide)
    rw [analyzed] at failed
    contradiction
  · exact analyzed

end ProgramDependence
