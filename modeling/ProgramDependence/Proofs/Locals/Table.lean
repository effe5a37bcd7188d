import ProgramDependence.Flow.Steps
import ProgramDependence.Locals.Table

/-! The numbers of locals stand for their names: every name that a body mentions has exactly one,
and with it the type of the first declaration. What an instruction writes and reads by number is
what it writes and reads by name. -/
namespace ProgramDependence

namespace Body

/-- The instruction writes the local. -/
def Defines (b : Body) (i : Nat) (name : String) : Prop :=
  ∃ s, b.stmts[i]? = some s ∧ s.definedLocal? = some name

/-- The instruction has the local among its operands. -/
def Reads (b : Body) (i : Nat) (name : String) : Prop :=
  ∃ s, b.stmts[i]? = some s ∧ Operand.localVar name ∈ s.operands

/-- The type that a local is first declared with. -/
def typeOf (b : Body) (name : String) : String :=
  ((b.locals.find? fun d => d.name = name).map (·.ty)).getD "unknown"

end Body

theorem Operand.local?_eq_some {operand : Operand} :
    operand.local? = some name ↔ operand = .localVar name := by
  cases operand <;> simp [Operand.local?]

theorem Stmt.mem_usedLocals {s : Stmt} : name ∈ s.usedLocals ↔ Operand.localVar name ∈ s.operands := by
  simp only [usedLocals, List.mem_filterMap, Operand.local?_eq_some, exists_eq_right]

namespace Locals

variable {ls : Locals} {name : String} {v i : Nat} {b : Body}

def Distinct (ls : Locals) : Prop := (ls.entries.map (·.name)).Nodup

theorem any_name : (ls.entries.any fun e => e.name = name) = true ↔
    name ∈ ls.entries.map (·.name) := by
  simp

theorem add_distinct (d : LocalDecl) (distinct : Distinct ls) : Distinct (ls.add d) := by
  unfold add
  split
  · exact distinct
  next new =>
    have new : d.name ∉ ls.entries.map (·.name) := mt any_name.mpr new
    simp only [Distinct, List.map_append, List.map_cons, List.map_nil]
    refine List.nodup_append.mpr ⟨distinct, by simp, ?_⟩
    intro a member a' single same
    obtain rfl := List.mem_singleton.mp single
    exact new (same ▸ member)

theorem foldl_add_distinct (decls : List LocalDecl) (distinct : Distinct ls) :
    Distinct (decls.foldl add ls) := by
  induction decls generalizing ls with
  | nil => exact distinct
  | cons d decls ih => exact ih (add_distinct d distinct)

/-- A later declaration of a name changes nothing. -/
theorem find?_add (ls : Locals) (d : LocalDecl) (name : String) :
    (ls.add d).entries.find? (fun e => e.name = name) =
      (ls.entries ++ [d]).find? fun e => e.name = name := by
  unfold add
  split
  next known =>
    rw [List.find?_append]
    cases found : ls.entries.find? fun e => e.name = name with
    | some e => simp
    | none =>
      have other : ¬d.name = name := by
        rintro rfl
        obtain ⟨e, member, same⟩ := List.any_eq_true.mp known
        exact absurd same (by simpa using List.find?_eq_none.mp found e member)
      simp [other]
  next => rfl

theorem find?_foldl_add (decls : List LocalDecl) (ls : Locals) (name : String) :
    (decls.foldl add ls).entries.find? (fun e => e.name = name) =
      (ls.entries ++ decls).find? fun e => e.name = name := by
  induction decls generalizing ls with
  | nil => simp
  | cons d decls ih =>
    rw [List.foldl_cons, ih, List.find?_append, find?_add, ← List.find?_append, List.append_assoc]
    rfl

theorem collect_distinct (b : Body) : Distinct (collect b) :=
  foldl_add_distinct _ (by simp [Distinct])

theorem id?_iff (distinct : Distinct ls) :
    ls.id? name = some v ↔ (ls.entries.map (·.name))[v]? = some name := by
  simp only [id?]
  constructor
  · intro found
    obtain ⟨bound, same, _⟩ := List.findIdx?_eq_some_iff_getElem.mp found
    simp only [decide_eq_true_eq] at same
    simp [bound, same]
  · intro there
    obtain ⟨bound, same⟩ := List.getElem?_eq_some_iff.mp there
    refine List.findIdx?_eq_some_iff_getElem.mpr ⟨by simpa using bound, by simpa using same, ?_⟩
    intro j before also
    have earlier : j < (ls.entries.map (·.name)).length := by omega
    have equal : (ls.entries.map (·.name))[j]? = (ls.entries.map (·.name))[v]? := by
      rw [there, List.getElem?_eq_getElem earlier]
      simpa using also
    have := (List.getElem?_inj earlier distinct).mp equal
    omega

theorem id?_lt (found : ls.id? name = some v) : v < ls.count := by
  obtain ⟨bound, _⟩ := List.findIdx?_eq_some_iff_getElem.mp found
  exact bound

theorem nameOf_id (distinct : Distinct ls) (found : ls.id? name = some v) : ls.nameOf v = name := by
  have there := (id?_iff distinct).mp found
  rw [List.getElem?_map] at there
  simp [nameOf, there]

/-- The declarations that count, with those that come from mentions last. -/
def decls (b : Body) : List LocalDecl := b.locals ++ b.code.flatMap fun i => mentions i.stmt

theorem find?_collect (b : Body) (name : String) :
    (collect b).entries.find? (fun e => e.name = name) = (decls b).find? fun e => e.name = name :=
  find?_foldl_add (decls b) ⟨[]⟩ name

theorem id?_isSome (member : name ∈ (decls b).map (·.name)) : ∃ v, (collect b).id? name = some v := by
  obtain ⟨d, listed, named⟩ := List.mem_map.mp member
  have found : ((decls b).find? fun e => e.name = name).isSome := by
    rw [List.find?_isSome]
    exact ⟨d, listed, by simpa using named⟩
  rw [← find?_collect, List.find?_isSome] at found
  refine Option.isSome_iff_exists.mp ?_
  rw [id?, List.findIdx?_isSome]
  obtain ⟨e, there, sameName⟩ := found
  exact List.any_eq_true.mpr ⟨e, there, sameName⟩

theorem mentions_unknown {s : Stmt} {d : LocalDecl} (member : d ∈ mentions s) :
    d.ty = unknownType := by
  simp only [mentions, List.mem_map] at member
  obtain ⟨_, _, rfl⟩ := member
  rfl

theorem typeOf_id (found : (collect b).id? name = some v) :
    (collect b).typeOf v = b.typeOf name := by
  have first : (collect b).entries[v]? = (decls b).find? fun e => e.name = name := by
    obtain ⟨bound, isName, before⟩ := List.findIdx?_eq_some_iff_getElem.mp found
    rw [← find?_collect, List.getElem?_eq_getElem bound]
    symm
    rw [List.find?_eq_some_iff_getElem]
    refine ⟨isName, v, bound, rfl, ?_⟩
    intro j earlier
    simpa using before j earlier
  simp only [typeOf, Body.typeOf, first, decls, List.find?_append]
  cases declared : b.locals.find? fun d => d.name = name with
  | some d => simp
  | none =>
    simp only [Option.none_or, Option.map_none, Option.getD_none]
    cases mentioned : (b.code.flatMap fun i => mentions i.stmt).find? fun d => d.name = name with
    | none => rfl
    | some d =>
      obtain ⟨i, _, inStmt⟩ := List.mem_flatMap.mp (List.mem_of_find?_eq_some mentioned)
      simp [mentions_unknown inStmt, unknownType]

theorem id?_of_mention {s : Stmt} (there : b.stmts[i]? = some s)
    (named : s.definedLocal? = some name ∨ name ∈ s.usedLocals) :
    ∃ v, (collect b).id? name = some v := by
  refine id?_isSome (List.mem_map.mpr ⟨⟨name, unknownType⟩, ?_, rfl⟩)
  obtain ⟨instruction, listed, rfl⟩ := List.mem_map.mp (List.mem_of_getElem? there)
  refine List.mem_append_right _ (List.mem_flatMap.mpr ⟨instruction, listed, ?_⟩)
  refine List.mem_map.mpr ⟨name, ?_, rfl⟩
  rcases named with defined | used
  · exact List.mem_append_left _ (by simp [defined])
  · exact List.mem_append_right _ used

theorem id?_of_defines (defined : b.Defines i name) : ∃ v, (collect b).id? name = some v := by
  obtain ⟨s, there, named⟩ := defined
  exact id?_of_mention there (.inl named)

theorem id?_inj (distinct : Distinct ls) (first : ls.id? name = some v)
    (second : ls.id? other = some v) : name = other := by
  rw [id?_iff distinct] at first second
  exact Option.some.inj (first.symm.trans second)

end Locals

namespace Access

variable {b : Body} {name : String} {v i : Nat}

theorem def?_iff (found : (Locals.collect b).id? name = some v) :
    (compute b (Locals.collect b)).def? i = some v ↔ b.Defines i name := by
  simp only [def?, compute, Body.Defines, Body.stmts, List.getD_eq_getElem?_getD, List.getElem?_map]
  cases b.code[i]? with
  | none => simp
  | some instruction =>
    simp only [Option.map_some, Option.getD_some, Option.bind_eq_some_iff, Option.some.injEq,
      exists_eq_left']
    constructor
    · rintro ⟨other, defined, same⟩
      rw [Locals.id?_inj (Locals.collect_distinct b) found same]
      exact defined
    · intro defined
      exact ⟨name, defined, found⟩

theorem mem_usesAt (found : (Locals.collect b).id? name = some v) :
    v ∈ (compute b (Locals.collect b)).usesAt i ↔ b.Reads i name := by
  simp only [usesAt, compute, Body.Reads, Body.stmts, List.getD_eq_getElem?_getD, List.getElem?_map]
  cases b.code[i]? with
  | none => simp
  | some instruction =>
    simp only [Option.map_some, Option.getD_some, List.mem_eraseDups, List.mem_filterMap,
      Option.some.injEq, exists_eq_left', ← Stmt.mem_usedLocals]
    constructor
    · rintro ⟨other, used, same⟩
      rw [Locals.id?_inj (Locals.collect_distinct b) found same]
      exact used
    · intro used
      exact ⟨name, used, found⟩

/-- A number that is written or read is that of a name. -/
theorem exists_name_of_def? (defined : (compute b (Locals.collect b)).def? i = some v) :
    ∃ name, (Locals.collect b).id? name = some v := by
  simp only [def?, compute, List.getD_eq_getElem?_getD, List.getElem?_map] at defined
  cases there : b.code[i]? with
  | none => simp [there] at defined
  | some instruction =>
    simp only [there, Option.map_some, Option.getD_some, Option.bind_eq_some_iff] at defined
    obtain ⟨name, _, found⟩ := defined
    exact ⟨name, found⟩

theorem exists_name_of_use (reads : v ∈ (compute b (Locals.collect b)).usesAt i) :
    ∃ name, (Locals.collect b).id? name = some v := by
  simp only [usesAt, compute, List.getD_eq_getElem?_getD, List.getElem?_map] at reads
  cases there : b.code[i]? with
  | none => simp [there] at reads
  | some instruction =>
    simp only [there, Option.map_some, Option.getD_some, List.mem_eraseDups,
      List.mem_filterMap] at reads
    obtain ⟨name, _, found⟩ := reads
    exact ⟨name, found⟩

theorem eraseDups_nodup (numbers : List Nat) : numbers.eraseDups.Nodup := by
  induction count : numbers.length using Nat.strongRecOn generalizing numbers with
  | _ n ih =>
    cases numbers with
    | nil => exact List.nodup_nil
    | cons v numbers =>
      have shorter := List.length_filter_le (fun w => !w == v) numbers
      rw [List.length_cons] at count
      rw [List.eraseDups_cons, List.nodup_cons]
      exact ⟨by simp, ih _ (by omega) _ rfl⟩

theorem usesAt_nodup (b : Body) (ls : Locals) (i : Nat) : ((compute b ls).usesAt i).Nodup := by
  simp only [usesAt, compute, List.getD_eq_getElem?_getD, List.getElem?_map]
  cases b.code[i]? with
  | none => exact List.nodup_nil
  | some instruction => exact eraseDups_nodup _

end Access
end ProgramDependence
