import ProgramDependence.Proofs.Method.Links
import ProgramDependence.Proofs.Project.Jobs

/-! Methods that cannot be built. The body alone decides whether a method fails, and it does so
before anything but the entry node of the method is made. The entry nodes of all methods are there
already, so a run goes on as if the method had no body. -/
namespace ProgramDependence

/-! ### Which methods fail -/

/-- There is a body, but it does not decode, or a branch in it leads outside. -/
def Method.Fails (m : Method) : Prop :=
  ∃ raw ∈ m.body, Body.ofJson? raw = none ∨
    ∃ body ∈ Body.ofJson? raw, ∃ s ∈ body.stmts, ∃ target ∈ s.targets, body.size ≤ target

instance (m : Method) : Decidable m.Fails :=
  inferInstanceAs (Decidable (∃ raw ∈ m.body, Body.ofJson? raw = none ∨
    ∃ body ∈ Body.ofJson? raw, ∃ s ∈ body.stmts, ∃ target ∈ s.targets, body.size ≤ target))

theorem Body.not_inRange {b : Body} :
    ¬b.InRange ↔ ∃ s ∈ b.stmts, ∃ target ∈ s.targets, b.size ≤ target := by
  simp [InRange]

theorem Body.inRange_of_analyze {b : Body} {policy : Policy} {a : Analysis}
    (ok : b.analyze policy = .ok a) : b.InRange :=
  (flow?_inv (analyzed ok).flow).1

/-- What building a method can come to, whatever the graph: a report, or the entry node alone. -/
theorem buildMethod_cases (labelling : Labelling) (policy : Policy) (c : Class) (m : Method)
    (body : Body) (g : Graph) :
    let r := buildMethod labelling policy c m body g
    (body.InRange ∧ ∃ report, r.report = .ok report) ∨
      (¬body.InRange ∧ r.graph = (g.intern (.entry c m)).1 ∧ ∃ e, r.report = .error (.flow e)) := by
  cases analyzed : body.analyze policy with
  | error e =>
    have failed : buildMethod labelling policy c m body g =
        ⟨(g.intern (.entry c m)).1, .error (.flow e), []⟩ := by
      simp only [buildMethod, analyzed]
    rw [failed]
    refine .inr ⟨fun inRange => ?_, rfl, e, rfl⟩
    obtain ⟨a, ok⟩ := Body.analyze_of_inRange policy inRange
    rw [analyzed] at ok
    cases ok
  | ok a =>
    obtain ⟨_, _, report, _⟩ := buildMethod_runs labelling c m g analyzed
    exact .inl ⟨Body.inRange_of_analyze analyzed, _, report⟩

namespace Project

variable {o : BuildOptions} {g : Graph} {t : Task} {r r' : BuildResult}

/-- What running a method can come to. -/
theorem runTask_cases (o : BuildOptions) (g : Graph) (t : Task) :
    (¬t.2.Fails ∧ (runTask o g t).outcome ≠ .skipped) ∨
      (t.2.Fails ∧ (runTask o g t).outcome = .skipped ∧
        ((runTask o g t).graph = g ∨ (runTask o g t).graph = (g.intern (.entry t.1 t.2)).1)) := by
  obtain ⟨c, m⟩ := t
  simp only [runTask, Method.Fails]
  cases m.body with
  | none => simp
  | some raw =>
    simp only
    cases decoded : Body.ofJson? raw with
    | none => simp [decoded]
    | some body =>
      simp only [Option.mem_some_iff, exists_eq_left', decoded, reduceCtorEq, false_or,
        ← Body.not_inRange]
      rcases buildMethod_cases o.labelling o.policy c m body g with
        ⟨inRange, report, built⟩ | ⟨leaves, graph, e, failed⟩
      · simp [built, inRange]
      · simp [failed, leaves, graph]

theorem runTask_skipped_iff (o : BuildOptions) (g : Graph) (t : Task) :
    (runTask o g t).outcome = .skipped ↔ t.2.Fails := by
  rcases runTask_cases o g t with ⟨fine, built⟩ | ⟨fails, skipped, _⟩
  · simp only [fine, built]
  · simp only [fails, skipped]

theorem runTask_graph_of_fails (fails : t.2.Fails) (o : BuildOptions) (g : Graph) :
    (runTask o g t).graph = g ∨ (runTask o g t).graph = (g.intern (.entry t.1 t.2)).1 := by
  rcases runTask_cases o g t with ⟨fine, _⟩ | ⟨_, _, left⟩
  · exact absurd fails fine
  · exact left

/-! ### Runs as one fold -/

/-- One more method. With several jobs it is counted as it comes out in a graph of its own. -/
def advance (o : BuildOptions) (r : BuildResult) (t : Task) : BuildResult :=
  r.add (runTask o r.graph t).graph (runTask o (if 1 < o.jobs then .empty else r.graph) t)

theorem advance_plain (plain : r.graph.Plain) (t : Task) : (advance o r t).graph.Plain :=
  (runTask_adds o t plain).graph.plain

theorem advance_listed {i : Identity} (plain : r.graph.Plain) (t : Task)
    (listed : i ∈ r.graph.identities) : i ∈ (advance o r t).graph.identities := by
  change i ∈ (runTask o r.graph t).graph.identities
  rw [(runTask_adds o t plain).graph.identities]
  exact mem_enlistAll.mpr (.inl listed)

theorem runApart_eq (several : 1 < o.jobs) (tasks : List Task) (plain : r.graph.Plain) :
    runApart o r tasks = .ok (tasks.foldl (advance o) r) := by
  induction tasks generalizing r with
  | nil => rfl
  | cons t tasks ih =>
    have step : mergeTask o r t = .ok (advance o r t) := by
      rw [mergeTask_eq o r t plain, advance, if_pos several]
    simp only [runApart, List.foldlM_cons, step, List.foldl_cons]
    exact ih (advance_plain plain t)

theorem runShared_eq (one : ¬1 < o.jobs) (tasks : List Task) (r : BuildResult) :
    runShared o r tasks = tasks.foldl (advance o) r := by
  unfold runShared
  apply List.foldl_ext
  intro r t _
  rw [advance, if_neg one]

theorem build_eq (o : BuildOptions) (classes : List Class) :
    build o classes = .ok ((tasksOf o classes).foldl (advance o) (opening o classes)) := by
  unfold build
  split
  next several => exact runApart_eq several _ (opening_plain o classes)
  next one => exact congrArg Except.ok (runShared_eq one _ _)

theorem foldl_advance_listed {i : Identity} (tasks : List Task) (plain : r.graph.Plain)
    (listed : i ∈ r.graph.identities) : i ∈ (tasks.foldl (advance o) r).graph.identities := by
  induction tasks generalizing r with
  | nil => exact listed
  | cons t tasks ih => exact ih (advance_plain plain t) (advance_listed plain t listed)

/-- A whole run adds what its methods add. -/
theorem foldl_advance_extends (o : BuildOptions) (tasks : List Task) (plain : r.graph.Plain) :
    r.graph.Extends (tasks.flatMap fun t => (contribution o t).mentions)
      (tasks.flatMap fun t => (contribution o t).links) (tasks.foldl (advance o) r).graph := by
  induction tasks generalizing r with
  | nil => exact .refl plain
  | cons t tasks ih =>
    have first := (runTask_adds o t plain).graph
    exact first.trans (ih (advance_plain plain t))

/-- The graph of a run, from its methods. -/
theorem build_extends (o : BuildOptions) (classes : List Class) : Graph.empty.Extends
    ((tasksOf o classes).map (fun t => .entry t.1 t.2) ++
      (tasksOf o classes).flatMap fun t => (contribution o t).mentions)
    ((tasksOf o classes).flatMap fun t => (contribution o t).links)
    ((tasksOf o classes).foldl (advance o) (opening o classes)).graph := by
  have entries := Graph.internAll_extends ((tasksOf o classes).map fun t => .entry t.1 t.2)
    Graph.empty_plain
  rw [← opening_graph] at entries
  exact entries.trans (foldl_advance_extends o (tasksOf o classes) (opening_plain o classes))

theorem opening_listed (member : t ∈ tasksOf o classes) :
    .entry t.1 t.2 ∈ (opening o classes).graph.identities := by
  rw [opening_graph, Graph.internAll_identities]
  exact mem_enlistAll.mpr (.inr (List.mem_map.mpr ⟨t, member, rfl⟩))

theorem record_methodsSkipped (s : Summary) (outcome : Outcome) :
    (s.record outcome).methodsSkipped =
      s.methodsSkipped + if outcome = .skipped then 1 else 0 := by
  cases outcome <;> simp [Summary.record]

theorem foldl_advance_skipped (o : BuildOptions) (tasks : List Task) (r : BuildResult) :
    (tasks.foldl (advance o) r).summary.methodsSkipped =
      r.summary.methodsSkipped + tasks.countP fun t => t.2.Fails := by
  induction tasks generalizing r with
  | nil => rfl
  | cons t tasks ih =>
    simp only [List.foldl_cons, ih, List.countP_cons, decide_eq_true_eq]
    simp only [advance, BuildResult.add, record_methodsSkipped, runTask_skipped_iff]
    omega

end Project

/-! ### The run without the bodies that fail -/

/-- Without its body, if that fails. -/
def Method.cleared (m : Method) : Method := if m.Fails then { m with body := none } else m

def Class.cleared (c : Class) : Class := { c with methods := c.methods.map Method.cleared }

def Outcome.cleared : Outcome → Outcome
  | .skipped => .noBody
  | outcome => outcome

/-- What was skipped counts as having no body. -/
def Summary.cleared (s : Summary) : Summary :=
  { s with methodsSkipped := 0, methodsWithoutBody := s.methodsWithoutBody + s.methodsSkipped }

theorem Summary.cleared_record (s : Summary) (outcome : Outcome) :
    (s.record outcome).cleared = s.cleared.record outcome.cleared := by
  cases outcome with
  | built report => rfl
  | noBody => simp [record, cleared, Outcome.cleared, Nat.add_right_comm]
  | skipped => simp [record, cleared, Outcome.cleared, Nat.add_assoc]

namespace Project

/-- Classes that are left out keep all their bodies. -/
def clearedFor (o : BuildOptions) (c : Class) : Class :=
  if (exclusion? o c).isNone then c.cleared else c

def clearedTask (t : Task) : Task := (t.1.cleared, t.2.cleared)

theorem exclusion?_clearedFor (o : BuildOptions) (c : Class) :
    exclusion? o (clearedFor o c) = exclusion? o c := by
  unfold clearedFor
  split <;> rfl

theorem tasksOf_cleared (o : BuildOptions) (classes : List Class) :
    tasksOf o (classes.map (clearedFor o)) = (tasksOf o classes).map clearedTask := by
  have kept : (classes.map (clearedFor o)).filter (fun c => (exclusion? o c).isNone) =
      (classes.filter fun c => (exclusion? o c).isNone).map (clearedFor o) := by
    simp only [List.filter_map, Function.comp_def, exclusion?_clearedFor]
  simp only [tasksOf, kept, List.flatMap_map, List.map_flatMap]
  apply List.flatMap_congr
  intro c member
  have allowed := (List.mem_filter.mp member).2
  simp [clearedFor, allowed, Class.cleared, clearedTask]

theorem entry_cleared (t : Task) :
    Identity.entry (clearedTask t).1 (clearedTask t).2 = .entry t.1 t.2 := by
  simp only [clearedTask, Method.cleared]
  split <;> rfl

theorem opening_cleared (o : BuildOptions) (classes : List Class) :
    opening o (classes.map (clearedFor o)) = opening o classes := by
  have events : (classes.map (clearedFor o)).filterMap (exclusion? o) =
      classes.filterMap (exclusion? o) := by
    simp only [List.filterMap_map, Function.comp_def, exclusion?_clearedFor]
  have entries : entryNodes ((tasksOf o classes).map clearedTask) = entryNodes (tasksOf o classes) := by
    simp only [entryNodes, List.foldl_map, entry_cleared]
  simp only [opening, events, tasksOf_cleared, entries, List.length_map]

/-- No method looks at the others of its class, so only its own body matters. -/
theorem runTask_cleared_of_not_fails (fine : ¬t.2.Fails) (o : BuildOptions) (g : Graph) :
    runTask o g (clearedTask t) = runTask o g t := by
  rw [clearedTask, Method.cleared, if_neg fine]
  rfl

theorem runTask_cleared_of_fails (fails : t.2.Fails) (o : BuildOptions) (g : Graph) :
    (runTask o g (clearedTask t)).graph = g ∧ (runTask o g (clearedTask t)).outcome = .noBody := by
  rw [clearedTask, Method.cleared, if_pos fails]
  exact ⟨rfl, rfl⟩

theorem runTask_cleared_outcome (o : BuildOptions) (g : Graph) (t : Task) :
    (runTask o g (clearedTask t)).outcome = (runTask o g t).outcome.cleared := by
  by_cases fails : t.2.Fails
  · rw [(runTask_cleared_of_fails fails o g).2, (runTask_skipped_iff o g t).mpr fails]
    rfl
  · rw [runTask_cleared_of_not_fails fails]
    have built := mt (runTask_skipped_iff o g t).mp fails
    cases outcome : (runTask o g t).outcome with
    | skipped => exact absurd outcome built
    | built report => rfl
    | noBody => rfl

/-- Once its entry node is there a failing method changes nothing. -/
theorem runTask_cleared_graph (o : BuildOptions) (listed : .entry t.1 t.2 ∈ g.identities) :
    (runTask o g (clearedTask t)).graph = (runTask o g t).graph := by
  by_cases fails : t.2.Fails
  · rw [(runTask_cleared_of_fails fails o g).1]
    rcases runTask_graph_of_fails fails o g with same | entered
    · exact same.symm
    · rw [entered, (Graph.intern_of_mem listed).1]
  · rw [runTask_cleared_of_not_fails fails]

/-- Two results with one graph, of which the second counts no failures. -/
structure Clears (r r' : BuildResult) : Prop where
  plain : r.graph.Plain
  graph : r'.graph = r.graph
  summary : r'.summary = r.summary.cleared

theorem advance_clears (clears : Clears r r') (listed : .entry t.1 t.2 ∈ r.graph.identities) :
    Clears (advance o r t) (advance o r' (clearedTask t)) where
  plain := advance_plain clears.plain t
  graph := by
    simp only [advance, BuildResult.add, clears.graph]
    exact runTask_cleared_graph o listed
  summary := by
    simp only [advance, BuildResult.add, clears.graph, clears.summary, Summary.cleared_record,
      runTask_cleared_outcome]

theorem foldl_advance_clears (tasks : List Task) (clears : Clears r r')
    (listed : ∀ t ∈ tasks, .entry t.1 t.2 ∈ r.graph.identities) :
    Clears (tasks.foldl (advance o) r) ((tasks.map clearedTask).foldl (advance o) r') := by
  induction tasks generalizing r r' with
  | nil => exact clears
  | cons t tasks ih =>
    apply ih (advance_clears clears (listed t List.mem_cons_self))
    intro later member
    exact advance_listed clears.plain t (listed later (List.mem_cons_of_mem t member))

theorem opening_clears (o : BuildOptions) (classes : List Class) :
    Clears ((tasksOf o classes).foldl (advance o) (opening o classes))
      ((tasksOf o (classes.map (clearedFor o))).foldl (advance o)
        (opening o (classes.map (clearedFor o)))) := by
  rw [tasksOf_cleared, opening_cleared]
  apply foldl_advance_clears
  · exact ⟨opening_plain o classes, rfl, rfl⟩
  · exact fun t => opening_listed

theorem tasksOf_methods (o : BuildOptions) (classes : List Class) :
    (tasksOf o classes).map (·.2) =
      (classes.filter fun c => (exclusion? o c).isNone).flatMap (·.methods) := by
  simp [tasksOf, List.map_flatMap]

theorem mem_tasksOf {c : Class} {m : Method} (member : c ∈ classes) (allowed : exclusion? o c = none)
    (method : m ∈ c.methods) : (c, m) ∈ tasksOf o classes := by
  apply List.mem_flatMap.mpr
  exact ⟨c, List.mem_filter.mpr ⟨member, by simp [allowed]⟩, List.mem_map.mpr ⟨m, method, rfl⟩⟩

/-- A method is skipped just when its body fails, whatever graph it is built into, and never
for the graph's sake. It leaves its entry node and nothing else: where the bodies that fail are
taken away, the graph is the same, and the methods are counted among those without a body. -/
theorem build_isolates_failures (o : BuildOptions) (classes : List Class) :
    (∀ g t, (runTask o g t).outcome = .skipped ↔ t.2.Fails) ∧
    (∀ g t, t.2.Fails → (runTask o g t).graph = g ∨
      (runTask o g t).graph = (g.intern (.entry t.1 t.2)).1) ∧
    (∀ c m body g e, (buildMethod o.labelling o.policy c m body g).report ≠ .error (.graph e)) ∧
    ∃ r r' text,
      build o classes = .ok r ∧ build o (classes.map (clearedFor o)) = .ok r' ∧
      r'.graph = r.graph ∧ r.graph.text = .ok text ∧
      (∀ c ∈ classes, exclusion? o c = none → ∀ m ∈ c.methods, .entry c m ∈ r.graph.identities) ∧
      r.summary.methodsSkipped =
        ((classes.filter fun c => (exclusion? o c).isNone).flatMap (·.methods)).countP (·.Fails) ∧
      r'.summary = { r.summary with
        methodsSkipped := 0
        methodsWithoutBody := r.summary.methodsWithoutBody + r.summary.methodsSkipped } := by
  refine ⟨runTask_skipped_iff o, fun g t fails => runTask_graph_of_fails fails o g, ?_, ?_⟩
  · intro c m body g e refused
    rcases buildMethod_cases o.labelling o.policy c m body g with
      ⟨_, report, built⟩ | ⟨_, _, e', failed⟩
    · rw [built] at refused
      cases refused
    · rw [failed] at refused
      cases refused
  · have clears := opening_clears o classes
    refine ⟨_, _, _, build_eq o classes, build_eq o _, clears.graph,
      Graph.text_of_sound clears.plain.sound, ?_, ?_, clears.summary⟩
    · intro c member allowed m method
      apply foldl_advance_listed _ (opening_plain o classes)
      exact opening_listed (mem_tasksOf member allowed method)
    · rw [foldl_advance_skipped, ← tasksOf_methods, List.countP_map]
      exact Nat.zero_add _

/-- A class with a method that returns at once, one whose body is a text, and one that jumps out of
its body. -/
def brokenClass (package : String) : Class :=
  ⟨package, package ++ ".C", "C.java", [
    ⟨"m", "m()", 1, 2, some (.obj [("instructions", .arr [.arr [.arr [.str "return"]]])])⟩,
    ⟨"n", "n()", 5, 2, some (.str "return")⟩,
    ⟨"k", "k()", 9, 2, some (.obj [("instructions", .arr [.arr [.arr [.str "goto", .int 7]]])])⟩]⟩

theorem brokenClass_isolated :
    let o : BuildOptions := ⟨.trees, .expanded, ["q"], 2⟩
    let classes := [brokenClass "p", brokenClass "q"]
    (brokenClass "p").methods.map (fun m => decide m.Fails) = [false, true, true] ∧
      ∃ r r' text, build o classes = .ok r ∧ build o (classes.map (clearedFor o)) = .ok r' ∧
        r'.graph = r.graph ∧ r.graph.text = .ok text ∧ r.summary.methodsSkipped = 2 ∧
        r'.summary = r.summary.cleared := by
  intro o classes
  have failing : (brokenClass "p").methods.map (fun m => decide m.Fails) = [false, true, true] := by
    decide +kernel
  have failures : ((classes.filter fun c => (exclusion? o c).isNone).flatMap (·.methods)).countP
      (·.Fails) = 2 := by
    decide +kernel
  obtain ⟨_, _, _, r, r', text, built, built', graph, written, _, skipped, summary⟩ :=
    build_isolates_failures o classes
  exact ⟨failing, r, r', text, built, built', graph, written, skipped.trans failures, summary⟩

end Project
end ProgramDependence
