import ProgramDependence.Project.Build
import ProgramDependence.Proofs.Graph.Merge
import ProgramDependence.Proofs.Graph.Writer
import ProgramDependence.Proofs.Method.Builder

/-! The number of jobs makes no difference to the graph. What a method adds does not depend on
the graph it is added to: the same identities are asked for in the same order, and the same links
are made. So building a method in a graph of its own and absorbing that gives what building it in place
gives. -/
namespace ProgramDependence

/-- A report but for its count of data dependences, which depends on what was there before. -/
def Report.withoutData (r : Report) : Report := { r with dataEdges := 0 }

def Outcome.withoutData : Outcome → Outcome
  | .built r => .built r.withoutData
  | .noBody => .noBody
  | .skipped => .skipped

/-- A summary but for its count of data dependences. -/
def Summary.withoutData (s : Summary) : Summary := { s with dataEdges := 0 }

theorem Summary.withoutData_record (s : Summary) (outcome : Outcome) :
    (s.record outcome).withoutData = s.withoutData.record outcome.withoutData := by
  cases outcome <;> rfl

/-! ### One method -/

/-- What a method adds wherever it is built, and what came of it but for the count of new data
dependences. -/
structure Contribution where
  mentions : List Identity
  links : List Link
  outcome : Outcome

/-- A result that agrees with a contribution to `g`. -/
structure Adds (add : Contribution) (g : Graph) (r : TaskResult) : Prop where
  graph : g.Extends add.mentions add.links r.graph
  outcome : r.outcome.withoutData = add.outcome

namespace Project

variable {g : Graph}

/-- The contribution of a method with this body. -/
def contributionOf (o : BuildOptions) (c : Class) (m : Method) (body : Body) : Contribution :=
  match body.analyze o.policy with
  | .error _ => ⟨[.entry c m], [], .skipped⟩
  | .ok analysis =>
    let f := Frame.ofAnalysis o.labelling c m analysis
    ⟨f.allNodes, f.links ++ f.data, .built (f.reportWith 0)⟩

def contribution (o : BuildOptions) (t : Task) : Contribution :=
  match t.2.body with
  | none => ⟨[], [], .noBody⟩
  | some raw =>
    match Body.ofJson? raw with
    | none => ⟨[], [], .skipped⟩
    | some body => contributionOf o t.1 t.2 body

/-- Control flow decides whether a body is built; the graph has no say in it. -/
theorem buildMethod_adds (o : BuildOptions) (c : Class) (m : Method) (body : Body)
    (plain : g.Plain) :
    let r := buildMethod o.labelling o.policy c m body g
    g.Extends (contributionOf o c m body).mentions (contributionOf o c m body).links r.graph ∧
      ((∃ e, r.report = .error e ∧ (contributionOf o c m body).outcome = .skipped) ∨
        ∃ report, r.report = .ok report ∧
          (contributionOf o c m body).outcome = .built report.withoutData) := by
  simp only [contributionOf]
  cases analyzed : body.analyze o.policy with
  | error e =>
    have failed : buildMethod o.labelling o.policy c m body g =
        ⟨(g.intern (.entry c m)).1, .error (.flow e), []⟩ := by
      simp only [buildMethod, analyzed]
    rw [failed]
    exact ⟨Graph.intern_extends plain (.entry c m), .inl ⟨_, rfl, rfl⟩⟩
  | ok analysis =>
    obtain ⟨n, report, drawn⟩ := buildMethod_extends o.labelling c m plain analyzed
    exact ⟨drawn, .inr ⟨_, report, rfl⟩⟩

theorem runTask_adds (o : BuildOptions) (t : Task) (plain : g.Plain) :
    Adds (contribution o t) g (runTask o g t) := by
  obtain ⟨c, m⟩ := t
  simp only [runTask, contribution]
  cases m.body with
  | none => exact ⟨.refl plain, rfl⟩
  | some raw =>
    simp only
    cases Body.ofJson? raw with
    | none => exact ⟨.refl plain, rfl⟩
    | some body =>
      obtain ⟨added, ⟨e, failed, skipped⟩ | ⟨report, built, same⟩⟩ :=
        buildMethod_adds o c m body plain
      · simp only [failed]
        exact ⟨added, skipped.symm⟩
      · simp only [built]
        exact ⟨added, same.symm⟩

/-! ### All methods -/

/-- Taking over what a method adds to nothing gives what it adds in place. -/
theorem absorb_contribution {f h : Graph} {mentions : List Identity} {links : List Link}
    (plain : g.Plain) (apart : Graph.empty.Extends mentions links f)
    (shared : g.Extends mentions links h) : ∃ places, g.absorb f = .ok (h, places) := by
  obtain ⟨k, places, absorbed, kPlain, identities, shown⟩ :=
    Graph.absorb_plain plain apart.plain
  have sameIdentities : k.identities = h.identities := by
    rw [identities, apart.identities, shared.identities]
    exact enlistAll_first g.identities mentions
  have same : k = h := Graph.eq_of_shows kPlain shared.plain sameIdentities fun l => by
    rw [shown, apart.shows_iff, shared.shows_iff]
    simp only [Graph.not_shows_empty, false_or]
  exact ⟨places, same ▸ absorbed⟩

/-- Two results with one graph, which agree but for the count of data dependences. -/
structure Agree (apart shared : BuildResult) : Prop where
  plain : shared.graph.Plain
  graph : apart.graph = shared.graph
  summary : apart.summary.withoutData = shared.summary.withoutData

theorem mergeTask_eq (o : BuildOptions) (r : BuildResult) (t : Task) (plain : r.graph.Plain) :
    mergeTask o r t = .ok (r.add (runTask o r.graph t).graph (runTask o .empty t)) := by
  have alone := runTask_adds o t Graph.empty_plain
  have inPlace := runTask_adds o t plain
  obtain ⟨places, absorbed⟩ := absorb_contribution plain alone.graph inPlace.graph
  simp only [mergeTask, absorbed]

theorem mergeTask_agrees (o : BuildOptions) (t : Task) {apart shared : BuildResult}
    (agree : Agree apart shared) :
    ∃ next, mergeTask o apart t = .ok next ∧
      Agree next (shared.add (runTask o shared.graph t).graph (runTask o shared.graph t)) := by
  have alone := runTask_adds o t Graph.empty_plain
  have inPlace := runTask_adds o t agree.plain
  have merged := mergeTask_eq o apart t (agree.graph ▸ agree.plain)
  rw [agree.graph] at merged
  refine ⟨_, merged, inPlace.graph.plain, rfl, ?_⟩
  simp only [BuildResult.add, Summary.withoutData_record, agree.summary, alone.outcome,
    inPlace.outcome]

theorem runApart_agrees (o : BuildOptions) (tasks : List Task) {apart shared : BuildResult}
    (agree : Agree apart shared) :
    ∃ result, runApart o apart tasks = .ok result ∧ Agree result (runShared o shared tasks) := by
  induction tasks generalizing apart shared with
  | nil => exact ⟨apart, rfl, agree⟩
  | cons t tasks ih =>
    obtain ⟨next, merged, agree'⟩ := mergeTask_agrees o t agree
    obtain ⟨result, rest, final⟩ := ih agree'
    refine ⟨result, ?_, final⟩
    simp only [runApart, List.foldlM_cons, merged]
    exact rest

theorem opening_graph (o : BuildOptions) (classes : List Class) : (opening o classes).graph =
    Graph.empty.internAll ((tasksOf o classes).map fun t => .entry t.1 t.2) := by
  simp [opening, entryNodes, Graph.internAll, List.foldl_map]

theorem opening_plain (o : BuildOptions) (classes : List Class) : (opening o classes).graph.Plain := by
  rw [opening_graph]
  exact Graph.internAll_plain _ Graph.empty_plain

/-- With any number of jobs above one a build succeeds, writes the text that one job writes, and
reports the same but for the count of data dependences. -/
theorem build_text_of_jobs (o : BuildOptions) (classes : List Class) (n : Nat) (several : 1 < n) :
    ∃ one many text,
      build { o with jobs := 1 } classes = .ok one ∧
      build { o with jobs := n } classes = .ok many ∧
      one.graph.text = .ok text ∧ many.graph.text = .ok text ∧
      many.summary.withoutData = one.summary.withoutData := by
  have start : Agree (opening o classes) (opening o classes) := ⟨opening_plain o classes, rfl, rfl⟩
  obtain ⟨many, built, agree⟩ := runApart_agrees o (tasksOf o classes) start
  have written := Graph.text_of_sound agree.plain.sound
  refine ⟨_, many, _, rfl, ?_, written, ?_, agree.summary⟩
  · simp only [build, several, ↓reduceIte]
    exact built
  · rw [agree.graph]
    exact written

/-- A class that comes twice, with a method that returns at once, one without a body and one that
jumps out of its body. -/
def repeatedClass : Class :=
  ⟨"p", "p.C", "C.java", [
    ⟨"m", "m()", 1, 2, some (.obj [("instructions", .arr [.arr [.arr [.str "return"]]])])⟩,
    ⟨"n", "n()", 5, 2, none⟩,
    ⟨"k", "k()", 9, 2, some (.obj [("instructions", .arr [.arr [.arr [.str "goto", .int 7]]])])⟩]⟩

theorem build_text_of_two_jobs :
    1 < 2 ∧ ∃ one many text,
      build ⟨.trees, .expanded, [], 1⟩ [repeatedClass, repeatedClass] = .ok one ∧
      build ⟨.trees, .expanded, [], 2⟩ [repeatedClass, repeatedClass] = .ok many ∧
      one.graph.text = .ok text ∧ many.graph.text = .ok text ∧
      many.summary.withoutData = one.summary.withoutData :=
  ⟨by decide, build_text_of_jobs ⟨.trees, .expanded, [], 1⟩ [repeatedClass, repeatedClass] 2 (by decide)⟩

end Project
end ProgramDependence
