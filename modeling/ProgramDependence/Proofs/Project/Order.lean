import Mathlib.Data.List.Perm.Basic
import ProgramDependence.Proofs.Method.Ends
import ProgramDependence.Proofs.Project.Failure

/-! Methods do not depend on each other. A run adds up what its methods add, so the order of the classes,
and of the methods in a class, shows only in the numbers of the nodes. The count of data dependences needs
more: with one job a method counts those that are new, and the sum over all methods is the number of
different ones in the graph. -/
namespace ProgramDependence

/-! ### Other orders -/

/-- The same class with its methods in another order. -/
structure Class.Shuffled (c c' : Class) : Prop where
  package : c'.package = c.package
  name : c'.name = c.name
  sourceFile : c'.sourceFile = c.sourceFile
  methods : c.methods.Perm c'.methods

namespace Project

/-- The same classes in another order, with their methods in other orders. -/
def Rearranged (classes classes' : List Class) : Prop :=
  ∃ between, classes.Perm between ∧ List.Forall₂ Class.Shuffled between classes'

variable {o : BuildOptions} {g : Graph} {t : Task} {r : BuildResult} {c c' : Class}
  {classes classes' : List Class} {tasks tasks' : List Task}

/-- A method with what it needs of its class. -/
def bare (t : Task) : Task := ({ t.1 with methods := [] }, t.2)

theorem exclusion?_of_shuffled (shuffled : c.Shuffled c') : exclusion? o c' = exclusion? o c := by
  simp only [exclusion?, shuffled.package, shuffled.name]

theorem bare_of_shuffled (shuffled : c.Shuffled c') (m : Method) : bare (c', m) = bare (c, m) := by
  simp only [bare, shuffled.package, shuffled.name, shuffled.sourceFile]

theorem tasksOf_cons (o : BuildOptions) (c : Class) (classes : List Class) :
    tasksOf o (c :: classes) =
      (if (exclusion? o c).isNone then c.methods.map fun m => (c, m) else []) ++ tasksOf o classes := by
  unfold tasksOf
  by_cases allowed : (exclusion? o c).isNone = true
  · simp [allowed]
  · simp [allowed]

theorem tasksOf_shuffled (shuffled : List.Forall₂ Class.Shuffled classes classes') :
    ((tasksOf o classes).map bare).Perm ((tasksOf o classes').map bare) := by
  induction shuffled with
  | nil => exact .refl _
  | @cons c c' classes classes' first _ ih =>
    have methods : (c.methods.map fun m => bare (c, m)).Perm (c'.methods.map fun m => bare (c', m)) := by
      simp only [bare_of_shuffled first]
      exact first.methods.map _
    rw [tasksOf_cons, tasksOf_cons, exclusion?_of_shuffled first, List.map_append, List.map_append]
    split
    · rw [List.map_map, List.map_map]
      exact methods.append ih
    · exact ih

theorem tasksOf_rearranged (rearranged : Rearranged classes classes') :
    ((tasksOf o classes).map bare).Perm ((tasksOf o classes').map bare) := by
  obtain ⟨between, reordered, shuffled⟩ := rearranged
  have same : (tasksOf o classes).Perm (tasksOf o between) := (reordered.filter _).flatMap_right _
  exact (same.map bare).trans (tasksOf_shuffled shuffled)

theorem opening_rearranged (rearranged : Rearranged classes classes') :
    (opening o classes').summary = (opening o classes).summary := by
  obtain ⟨between, reordered, shuffled⟩ := rearranged
  have events : between.filterMap (exclusion? o) = classes'.filterMap (exclusion? o) := by
    clear reordered
    induction shuffled with
    | nil => rfl
    | cons first _ ih => rw [List.filterMap_cons, List.filterMap_cons, exclusion?_of_shuffled first, ih]
  simp only [opening, reordered.length_eq, shuffled.length_eq, ← events,
    (reordered.filterMap (exclusion? o)).length_eq]

/-! ### The summary -/

theorem record_comm (s : Summary) (x y : Outcome) : (s.record x).record y = (s.record y).record x := by
  cases x <;> cases y <;> simp only [Summary.record, Nat.add_right_comm]

theorem foldl_record_perm {outcomes outcomes' : List Outcome} (perm : outcomes.Perm outcomes')
    (s : Summary) : outcomes.foldl Summary.record s = outcomes'.foldl Summary.record s := by
  apply perm.foldl_eq'
  intro x _ y _ s
  exact record_comm s x y

/-- With several jobs every method is counted by itself. -/
theorem foldl_advance_summary (several : 1 < o.jobs) (tasks : List Task) (r : BuildResult) :
    (tasks.foldl (advance o) r).summary =
      (tasks.map fun t => (runTask o .empty t).outcome).foldl Summary.record r.summary := by
  induction tasks generalizing r with
  | nil => rfl
  | cons t tasks ih =>
    rw [List.foldl_cons, ih, List.map_cons, List.foldl_cons, advance, if_pos several]
    rfl

/-- All counts but that of data dependences are those of the methods. -/
theorem foldl_advance_withoutData (o : BuildOptions) (tasks : List Task) (plain : r.graph.Plain) :
    (tasks.foldl (advance o) r).summary.withoutData =
      (tasks.map fun t => (contribution o t).outcome).foldl Summary.record r.summary.withoutData := by
  induction tasks generalizing r with
  | nil => rfl
  | cons t tasks ih =>
    have counted : (if 1 < o.jobs then Graph.empty else r.graph).Plain := by
      split
      · exact Graph.empty_plain
      · exact plain
    rw [List.foldl_cons, ih (advance_plain plain t), List.map_cons, List.foldl_cons]
    simp only [advance, BuildResult.add, Summary.withoutData_record, (runTask_adds o t counted).outcome]

end Project

/-! ### Data dependences -/

def Outcome.dataEdges : Outcome → Nat
  | .built r => r.dataEdges
  | .noBody | .skipped => 0

theorem Summary.record_dataEdges (s : Summary) (outcome : Outcome) :
    (s.record outcome).dataEdges = s.dataEdges + outcome.dataEdges := by
  cases outcome <;> rfl

theorem Summary.eq_of_withoutData {s s' : Summary} (others : s.withoutData = s'.withoutData)
    (data : s.dataEdges = s'.dataEdges) : s = s' := by
  cases s
  cases s'
  simp only [withoutData, mk.injEq] at others data ⊢
  tauto

/-- The data dependences between blocks that a graph shows. -/
def Graph.dataLinks (g : Graph) : Finset Link := g.shown.filter Link.IsData

namespace Project

variable {o : BuildOptions} {g : Graph} {t : Task} {r : BuildResult} {classes classes' : List Class}
  {tasks tasks' : List Task}

/-- The data dependences between blocks that a method adds. -/
def dataOf (o : BuildOptions) (t : Task) : Finset Link :=
  (contribution o t).links.toFinset.filter Link.IsData

theorem runTask_dataEdges (o : BuildOptions) (t : Task) (plain : g.Plain) :
    (runTask o g t).outcome.dataEdges = (dataOf o t \ g.shown).card := by
  obtain ⟨c, m⟩ := t
  simp only [runTask, dataOf, contribution]
  cases m.body with
  | none => simp [Outcome.dataEdges]
  | some raw =>
    simp only
    cases Body.ofJson? raw with
    | none => simp [Outcome.dataEdges]
    | some body =>
      simp only [contributionOf]
      cases analyzed : body.analyze o.policy with
      | error e => simp [buildMethod, analyzed, Outcome.dataEdges]
      | ok a =>
        obtain ⟨report, built, count⟩ := buildMethod_dataEdges o.labelling c m plain analyzed
        simp only [built, Frame.links_filter_isData (Body.analyzed analyzed)]
        exact count

theorem advance_dataLinks (o : BuildOptions) (t : Task) (plain : r.graph.Plain) :
    (advance o r t).graph.dataLinks = dataOf o t ∪ r.graph.dataLinks := by
  have added := (runTask_adds o t plain).graph.shown
  change (runTask o r.graph t).graph.shown.filter Link.IsData = _
  rw [added, Finset.filter_union, Finset.union_comm]
  rfl

/-- With one job a method counts the data dependences that it is the first to add. -/
theorem advance_count (one : ¬1 < o.jobs) (t : Task) (plain : r.graph.Plain)
    (start : r.summary.dataEdges = r.graph.dataLinks.card) :
    (advance o r t).summary.dataEdges = (advance o r t).graph.dataLinks.card := by
  have new : dataOf o t \ r.graph.shown = dataOf o t \ r.graph.dataLinks := by
    ext l
    simp only [dataOf, Graph.dataLinks, Finset.mem_sdiff, Finset.mem_filter]
    tauto
  rw [advance_dataLinks o t plain, ← Finset.card_sdiff_add_card, ← new,
    ← runTask_dataEdges o t plain, ← start]
  simp only [advance, BuildResult.add, if_neg one, Summary.record_dataEdges]
  exact Nat.add_comm _ _

theorem foldl_advance_count (one : ¬1 < o.jobs) (tasks : List Task) (plain : r.graph.Plain)
    (start : r.summary.dataEdges = r.graph.dataLinks.card) :
    (tasks.foldl (advance o) r).summary.dataEdges =
      (tasks.foldl (advance o) r).graph.dataLinks.card := by
  induction tasks generalizing r with
  | nil => exact start
  | cons t tasks ih => exact ih (advance_plain plain t) (advance_count one t plain start)

theorem opening_count (o : BuildOptions) (classes : List Class) :
    (opening o classes).summary.dataEdges = (opening o classes).graph.dataLinks.card := by
  have nothing := (Graph.internAll_extends ((tasksOf o classes).map fun t => .entry t.1 t.2)
    Graph.empty_plain).shown
  rw [opening_graph, Graph.dataLinks, nothing]
  rfl

/-! ### Whole runs -/

theorem map_of_bare {α : Type} (perm : (tasks.map bare).Perm (tasks'.map bare)) (f : Task → α)
    (needs : ∀ t, f (bare t) = f t) : (tasks.map f).Perm (tasks'.map f) := by
  have through := perm.map f
  simpa only [List.map_map, Function.comp_def, needs] using through

theorem build_graph_rearranged (o : BuildOptions) (rearranged : Rearranged classes classes') :
    let g := ((tasksOf o classes).foldl (advance o) (opening o classes)).graph
    let g' := ((tasksOf o classes').foldl (advance o) (opening o classes')).graph
    g.identities.Perm g'.identities ∧ g.shown = g'.shown := by
  intro g g'
  have perm := tasksOf_rearranged (o := o) rearranged
  have added := build_extends o classes
  have added' := build_extends o classes'
  have entries := map_of_bare perm (fun t => Identity.entry t.1 t.2) fun _ => rfl
  have mentions := (map_of_bare perm (fun t => (contribution o t).mentions) fun _ => rfl).flatten
  have links := (map_of_bare perm (fun t => (contribution o t).links) fun _ => rfl).flatten
  constructor
  · apply (List.perm_ext_iff_of_nodup added.plain.distinct added'.plain.distinct).mpr
    intro i
    simp only [added.identities, added'.identities, mem_enlistAll, List.mem_append, List.flatMap_def,
      entries.mem_iff, mentions.mem_iff]
  · rw [added.shown, added'.shown, List.flatMap_def, List.flatMap_def,
      List.toFinset_eq_of_perm _ _ links]

theorem build_summary_rearranged (o : BuildOptions) (rearranged : Rearranged classes classes') :
    ((tasksOf o classes').foldl (advance o) (opening o classes')).summary =
      ((tasksOf o classes).foldl (advance o) (opening o classes)).summary := by
  have perm := (tasksOf_rearranged (o := o) rearranged).symm
  have start := opening_rearranged (o := o) rearranged
  by_cases several : 1 < o.jobs
  · rw [foldl_advance_summary several, foldl_advance_summary several, start]
    exact foldl_record_perm (map_of_bare perm _ fun _ => rfl) _
  · apply Summary.eq_of_withoutData
    · rw [foldl_advance_withoutData o _ (opening_plain o classes'),
        foldl_advance_withoutData o _ (opening_plain o classes), start]
      exact foldl_record_perm (map_of_bare perm _ fun _ => rfl) _
    · have shown := (build_graph_rearranged o rearranged).2
      rw [foldl_advance_count several _ (opening_plain o classes') (opening_count o classes'),
        foldl_advance_count several _ (opening_plain o classes) (opening_count o classes),
        Graph.dataLinks, Graph.dataLinks, shown]

/-- Whatever the order of the classes, and of the methods in each, a run makes the same nodes and the same
edges between them, and counts the same. Every identity is there once, so only the numbers can differ. -/
theorem build_of_rearranged (o : BuildOptions) (classes classes' : List Class)
    (rearranged : Rearranged classes classes') :
    ∃ r r', build o classes = .ok r ∧ build o classes' = .ok r' ∧
      r.graph.identities.Nodup ∧ r.graph.vertices.Perm r'.graph.vertices ∧
      (∀ l, r.graph.Shows l ↔ r'.graph.Shows l) ∧ r'.summary = r.summary := by
  obtain ⟨identities, shown⟩ := build_graph_rearranged o rearranged
  have plain := (build_extends o classes).plain
  have plain' := (build_extends o classes').plain
  refine ⟨_, _, build_eq o classes, build_eq o classes', plain.distinct, ?_, ?_,
    build_summary_rearranged o rearranged⟩
  · rw [plain.vertices_eq, plain'.vertices_eq]
    exact identities.map _
  · intro l
    rw [← Graph.mem_shown, ← Graph.mem_shown, shown]

/-- A body that returns what it has put into a local. -/
def returning (text : String) : Json :=
  .obj [("instructions", .arr [
    .arr [.arr [.str "assign", .arr [.str "local", .str "x"], .arr [.str "constant", .str "int", .str text]]],
    .arr [.arr [.str "return", .arr [.str "local", .str "x"]]]])]

/-- A class of a package with these methods. -/
def inPackage (package : String) (methods : List Method) : Class := ⟨package, package ++ ".C", "C.java", methods⟩

theorem build_of_reversed :
    let m : Method := ⟨"m", "m()", 1, 2, some (returning "1")⟩
    let n : Method := ⟨"n", "n()", 5, 2, some (returning "2")⟩
    let classes := [inPackage "p" [m, m, n], inPackage "q" [n], inPackage "p" [m]]
    let classes' := [inPackage "q" [n], inPackage "p" [n, m, m], inPackage "p" [m]]
    Rearranged classes classes' ∧
      ∃ r r', build ⟨.trees, .unit, [], 1⟩ classes = .ok r ∧
        build ⟨.trees, .unit, [], 1⟩ classes' = .ok r' ∧
        r.graph.identities.Nodup ∧ r.graph.vertices.Perm r'.graph.vertices ∧
        (∀ l, r.graph.Shows l ↔ r'.graph.Shows l) ∧ r'.summary = r.summary := by
  intro m n classes classes'
  have reversed : [m, m, n].Perm [n, m, m] := List.reverse_perm [n, m, m]
  have rearranged : Rearranged classes classes' := by
    refine ⟨[inPackage "q" [n], inPackage "p" [m, m, n], inPackage "p" [m]], .swap _ _ _, ?_⟩
    exact .cons ⟨rfl, rfl, rfl, .refl _⟩ (.cons ⟨rfl, rfl, rfl, reversed⟩ (.cons ⟨rfl, rfl, rfl, .refl _⟩ .nil))
  exact ⟨rearranged, build_of_rearranged ⟨.trees, .unit, [], 1⟩ classes classes' rearranged⟩

end Project
end ProgramDependence
