import ProgramDependence.Proofs.Locals.Dataflow
import ProgramDependence.Proofs.Locals.Table

/-! What is found out about the locals of a body, in terms of its statements: a local is live where a
read of it lies ahead with no write between, and a definition reaches as far as nothing writes its
local again. -/
namespace ProgramDependence

namespace Body

variable {b : Body} {flow : Digraph} {name : String} {d i u v : Nat}

theorem carries_iff (found : (Locals.collect b).id? name = some v) :
    flow.Carries (.compute b (.collect b)) v d u ↔
      ∃ between, flow.Walk d between u ∧ ∀ i ∈ between, ¬b.Defines i name := by
  simp only [Digraph.Carries, ne_eq, Access.def?_iff found]

/-- Some way on from the instruction reads the local, and nothing on that way writes it before. -/
def Awaits (b : Body) (flow : Digraph) (i : Nat) (name : String) : Prop :=
  ∃ between r, flow.Walk i between r ∧ b.Reads r name ∧ ∀ k ∈ between, ¬b.Defines k name

/-- What instruction `d` writes to the local may still be there when control comes to `i`. -/
def Outlasts (b : Body) (flow : Digraph) (name : String) (d i : Nat) : Prop :=
  b.Defines d name ∧ ∃ between, flow.Walk d between i ∧ ∀ k ∈ between, ¬b.Defines k name

theorem mem_liveAfter (closed : flow.Closed) :
    v ∈ (Liveness.compute flow (.compute b (.collect b))).after i ↔
      ∃ name, (Locals.collect b).id? name = some v ∧ b.Awaits flow i name := by
  rw [Liveness.mem_after closed]
  constructor
  · rintro ⟨r, reads, carries⟩
    obtain ⟨name, named⟩ := Access.exists_name_of_use reads
    obtain ⟨between, walk, clear⟩ := (carries_iff named).mp carries
    exact ⟨name, named, between, r, walk, (Access.mem_usesAt named).mp reads, clear⟩
  · rintro ⟨name, named, between, r, walk, reads, clear⟩
    exact ⟨r, (Access.mem_usesAt named).mpr reads, (carries_iff named).mpr ⟨between, walk, clear⟩⟩

theorem mem_definitionsAt (closed : flow.Closed) :
    d ∈ (Reaching.compute flow (.compute b (.collect b))).definitionsAt i ↔
      ∃ name, b.Outlasts flow name d i := by
  rw [Reaching.mem_definitionsAt closed]
  constructor
  · rintro ⟨v, defined, carries⟩
    obtain ⟨name, named⟩ := Access.exists_name_of_def? defined
    exact ⟨name, (Access.def?_iff named).mp defined, (carries_iff named).mp carries⟩
  · rintro ⟨name, defines, lasts⟩
    obtain ⟨v, named⟩ := Locals.id?_of_defines defines
    exact ⟨v, (Access.def?_iff named).mpr defines, (carries_iff named).mpr lasts⟩

theorem mem_usesOf : (u, v) ∈ (Reaching.compute flow (.compute b (.collect b))).usesOf d ↔
    ∃ name, (Locals.collect b).id? name = some v ∧ b.Defines d name ∧ b.Reads u name ∧
      d ∈ (Reaching.compute flow (.compute b (.collect b))).definitionsAt u := by
  rw [Reaching.mem_usesOf_iff]
  constructor
  · rintro ⟨defined, reads, reaches⟩
    obtain ⟨name, named⟩ := Access.exists_name_of_def? defined
    exact ⟨name, named, (Access.def?_iff named).mp defined, (Access.mem_usesAt named).mp reads,
      reaches⟩
  · rintro ⟨name, named, defines, reads, reaches⟩
    exact ⟨(Access.def?_iff named).mpr defines, (Access.mem_usesAt named).mpr reads, reaches⟩

end Body

/-- The worklist of live locals empties, and a local is live after an instruction if and only if some
way on from there reads it before anything writes it. -/
theorem live_iff_awaited (b : Body) (inRange : b.InRange) :
    ∃ flow, b.flow? = .ok flow ∧
      let access := Access.compute b (.collect b)
      (Liveness.spread flow access).EmptiesTo (Liveness.compute flow access).sets ∧
        ∀ i, ((Liveness.compute flow access).after i).Pairwise (· < ·) ∧
          ∀ v, v ∈ (Liveness.compute flow access).after i ↔
            ∃ name, (Locals.collect b).id? name = some v ∧ b.Awaits flow i name := by
  have ok := Body.flow?_of_inRange inRange
  have closed := Body.flow_closed ok
  refine ⟨_, ok, Spread.emptiesTo_settle (Liveness.spread_regular closed _), fun i => ⟨?_, fun v => ?_⟩⟩
  · exact Liveness.after_ascending closed _ i
  · exact Body.mem_liveAfter closed

/-- A branch to itself, and a loop in which an instruction may read what it wrote. -/
def spinning : Body where
  locals := [⟨"n", "int"⟩]
  code := [
    ⟨.identity "n" (.parameter 0 "int"), .zero⟩,
    ⟨.branch (.localVar "n") 1, .zero⟩,
    ⟨.assign (.localVar "m") (.localVar "n"), .zero⟩,
    ⟨.assign (.localVar "m") (.binary "-" (.localVar "m") (.localVar "n")), .zero⟩,
    ⟨.branch (.localVar "m") 3, .zero⟩,
    ⟨.ret (some (.localVar "m")), .zero⟩]

def spinningFlow : Digraph := ⟨[[1], [1, 2], [3], [4], [3, 5], []]⟩

theorem spinning_live : spinning.InRange ∧ spinning.flow? = .ok spinningFlow ∧
    (Liveness.compute spinningFlow (.compute spinning (.collect spinning))).sets =
      [[0], [0], [0, 1], [0, 1], [0, 1], []] ∧
    spinning.Awaits spinningFlow 4 "n" ∧ ¬spinning.Awaits spinningFlow 1 "m" := by
  have inRange : spinning.InRange := by decide
  have ok : spinning.flow? = .ok spinningFlow := rfl
  obtain ⟨flow, same, _, live⟩ := live_iff_awaited spinning inRange
  obtain rfl := Except.ok.inj (ok.symm.trans same)
  refine ⟨inRange, ok, by decide, ?_, fun awaited => ?_⟩
  · obtain ⟨name, named, awaited⟩ := ((live 4).2 0).mp (by decide)
    have first : (Locals.collect spinning).id? "n" = some 0 := by decide
    rwa [Locals.id?_inj (Locals.collect_distinct spinning) first named]
  · have second : (Locals.collect spinning).id? "m" = some 1 := by decide
    exact absurd (((live 1).2 1).mpr ⟨"m", second, awaited⟩) (by decide)

/-- The worklist of reaching definitions empties, a definition reaches exactly as far as nothing writes
its local again, and its uses are the reads of that local that it reaches, in the order of the code. -/
theorem definitions_reach_exactly (b : Body) (inRange : b.InRange) :
    ∃ flow, b.flow? = .ok flow ∧
      let access := Access.compute b (.collect b)
      let reaching := Reaching.compute flow access
      (Reaching.spread flow access).EmptiesTo reaching.sets ∧
        (∀ i, (reaching.definitionsAt i).Pairwise (· < ·) ∧
          ∀ d, d ∈ reaching.definitionsAt i ↔ ∃ name, b.Outlasts flow name d i) ∧
        ∀ d, (reaching.usesOf d).Pairwise (fun use later => use.1 < later.1) ∧
          ∀ u v, (u, v) ∈ reaching.usesOf d ↔ ∃ name, (Locals.collect b).id? name = some v ∧
            b.Defines d name ∧ b.Reads u name ∧ d ∈ reaching.definitionsAt u := by
  have ok := Body.flow?_of_inRange inRange
  have closed := Body.flow_closed ok
  refine ⟨_, ok, Spread.emptiesTo_settle (Reaching.spread_regular closed _), fun i => ⟨?_, fun d => ?_⟩,
    fun d => ⟨?_, fun u v => ?_⟩⟩
  · exact Reaching.definitionsAt_ascending closed _ i
  · exact Body.mem_definitionsAt closed
  · exact Reaching.usesOf_ascending closed (Access.usesAt_nodup b _) d
  · exact Body.mem_usesOf

theorem spinning_definitions : spinning.InRange ∧ spinning.flow? = .ok spinningFlow ∧
    let reaching := Reaching.compute spinningFlow (.compute spinning (.collect spinning))
    reaching.sets = [[], [0], [0], [0, 2, 3], [0, 3], [0, 3]] ∧
      reaching.usesOf 3 = [(3, 1), (4, 1), (5, 1)] ∧
      (∃ name, spinning.Outlasts spinningFlow name 3 3) ∧
      ∀ name, ¬spinning.Outlasts spinningFlow name 2 4 := by
  have inRange : spinning.InRange := by decide
  have ok : spinning.flow? = .ok spinningFlow := rfl
  obtain ⟨flow, same, _, reaches, _⟩ := definitions_reach_exactly spinning inRange
  obtain rfl := Except.ok.inj (ok.symm.trans same)
  refine ⟨inRange, ok, by decide, by decide, ?_, fun name lasts => ?_⟩
  · exact ((reaches 3).2 3).mp (by decide)
  · exact absurd (((reaches 4).2 2).mpr ⟨name, lasts⟩) (by decide)

end ProgramDependence
