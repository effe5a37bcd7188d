import ProgramDependence.Proofs.Project.Order
import ProgramDependence.Proofs.Project.Separation

/-! What the count of data dependences counts. With one job it is the number of such edges in the graph, those
from constants left out. With several jobs every method counts its own, so an edge that two methods share is
counted twice; methods can share edges only if they agree on package, class, file and signature. -/
namespace ProgramDependence

namespace Graph

variable {g : Graph} {e : Edge} {l : Link}

/-- A data dependence on something other than a constant. -/
def isData (g : Graph) (e : Edge) : Bool :=
  e.tag ≠ "cfg" && e.tag ≠ "cdg" &&
    match g.view e.source with
    | .ok source => source.kind ≠ "constant"
    | .error _ => false

/-- The data dependences between blocks. -/
def dataEdges (g : Graph) : List Edge := g.edges.filter g.isData

theorem Plain.isData_iff (plain : Plain g) (stands : g.StandsFor e l) : g.isData e = true ↔ l.IsData := by
  obtain ⟨source, _, tag⟩ := stands
  simp only [isData, plain.view_eq source, Link.IsData, Bool.and_eq_true, decide_eq_true_eq, and_assoc, tag]
  rfl

theorem Plain.card_dataLinks (plain : Plain g) : g.dataLinks.card = g.dataEdges.length := by
  have same : g.dataLinks = (g.dataEdges.filterMap g.linkOf?).toFinset := by
    ext l
    simp only [dataLinks, shown, dataEdges, Finset.mem_filter, List.mem_toFinset, List.mem_filterMap,
      List.mem_filter, linkOf?_eq_some]
    constructor
    · rintro ⟨⟨e, member, stands⟩, data⟩
      exact ⟨e, ⟨member, (plain.isData_iff stands).mpr data⟩, stands⟩
    · rintro ⟨e, ⟨member, data⟩, stands⟩
      exact ⟨⟨e, member, stands⟩, (plain.isData_iff stands).mp data⟩
  rw [same]
  exact plain.card_links List.filter_sublist

end Graph

namespace Project

variable {o : BuildOptions} {r : BuildResult} {t u : Task} {tasks : List Task}

/-! ### Methods apart -/

/-- The fields that nodes of one method share. -/
def address (t : Task) : String × String × String × String :=
  (t.1.package, t.1.name, t.1.sourceFile, t.2.signature)

theorem address_of_madeFor {i : Identity} (first : i.MadeFor t.1 t.2) (second : i.MadeFor u.1 u.2) :
    address t = address u := by
  obtain ⟨_, _, _, _, rfl⟩ := first
  obtain ⟨_, _, _, _, same⟩ := second
  simp only [Identity.within, Identity.mk.injEq] at same
  simp only [address, same]

theorem dataOf_disjoint (apart : address t ≠ address u) : Disjoint (dataOf o t) (dataOf o u) := by
  apply Finset.disjoint_left.mpr
  intro l first second
  simp only [dataOf, Finset.mem_filter, List.mem_toFinset] at first second
  apply apart
  exact address_of_madeFor ((contribution_regular o t).1 l first.1).source
    ((contribution_regular o u).1 l second.1).source

/-! ### Several jobs -/

theorem advance_dataEdges (several : 1 < o.jobs) (t : Task) (r : BuildResult) :
    (advance o r t).summary.dataEdges = r.summary.dataEdges + (dataOf o t).card := by
  simp only [advance, BuildResult.add, if_pos several, Summary.record_dataEdges,
    runTask_dataEdges o t Graph.empty_plain, Graph.shown_empty, Finset.sdiff_empty]

/-- A method counts all its data dependences, whether or not they are in the graph. -/
theorem advance_overcount (several : 1 < o.jobs) (t : Task) (plain : r.graph.Plain)
    (start : r.graph.dataLinks.card ≤ r.summary.dataEdges) :
    (advance o r t).graph.dataLinks.card ≤ (advance o r t).summary.dataEdges := by
  rw [advance_dataLinks o t plain, advance_dataEdges several]
  have most := Finset.card_union_le (dataOf o t) r.graph.dataLinks
  omega

theorem foldl_advance_overcount (several : 1 < o.jobs) (tasks : List Task) (plain : r.graph.Plain)
    (start : r.graph.dataLinks.card ≤ r.summary.dataEdges) :
    (tasks.foldl (advance o) r).graph.dataLinks.card ≤ (tasks.foldl (advance o) r).summary.dataEdges := by
  induction tasks generalizing r with
  | nil => exact start
  | cons t tasks ih => exact ih (advance_plain plain t) (advance_overcount several t plain start)

theorem advance_count_apart (several : 1 < o.jobs) (plain : r.graph.Plain)
    (apart : Disjoint (dataOf o t) r.graph.dataLinks)
    (start : r.summary.dataEdges = r.graph.dataLinks.card) :
    (advance o r t).summary.dataEdges = (advance o r t).graph.dataLinks.card := by
  rw [advance_dataLinks o t plain, advance_dataEdges several, Finset.card_union_of_disjoint apart, start]
  exact Nat.add_comm _ _

/-- Methods that are apart from each other and from all that is in the graph count every edge once. -/
theorem foldl_advance_count_apart (several : 1 < o.jobs) (plain : r.graph.Plain)
    (distinct : (tasks.map address).Nodup)
    (apart : ∀ t ∈ tasks, Disjoint (dataOf o t) r.graph.dataLinks)
    (start : r.summary.dataEdges = r.graph.dataLinks.card) :
    (tasks.foldl (advance o) r).summary.dataEdges =
      (tasks.foldl (advance o) r).graph.dataLinks.card := by
  induction tasks generalizing r with
  | nil => exact start
  | cons t tasks ih =>
    obtain ⟨new, rest⟩ := List.nodup_cons.mp distinct
    apply ih (advance_plain plain t) rest
    · -- a later method is apart from the graph before and from what this one has added
      intro u member
      have differs : address u ≠ address t := fun same => new (same ▸ List.mem_map_of_mem member)
      rw [advance_dataLinks o t plain]
      exact Finset.disjoint_union_right.mpr
        ⟨dataOf_disjoint differs, apart u (List.mem_cons_of_mem t member)⟩
    · exact advance_count_apart several plain (apart t List.mem_cons_self) start

theorem opening_dataLinks (o : BuildOptions) (classes : List Class) :
    (opening o classes).graph.dataLinks = ∅ := by
  rw [← Finset.card_eq_zero, ← opening_count]
  rfl

/-! ### Whole runs -/

/-- The data dependences that a run reports are those in its graph, each counted once with one job, and also
with several as long as no two methods have the same address. -/
theorem build_counts_dataEdges (o : BuildOptions) (classes : List Class) :
    ∃ r, build o classes = .ok r ∧
      (o.jobs ≤ 1 → r.summary.dataEdges = r.graph.dataEdges.length) ∧
      (1 < o.jobs → r.graph.dataEdges.length ≤ r.summary.dataEdges ∧
        (((tasksOf o classes).map address).Nodup →
          r.summary.dataEdges = r.graph.dataEdges.length)) := by
  have plain := opening_plain o classes
  have start := opening_count o classes
  refine ⟨_, build_eq o classes, ?_⟩
  rw [← (build_extends o classes).plain.card_dataLinks]
  refine ⟨fun one => ?_, fun several => ⟨?_, fun distinct => ?_⟩⟩
  · exact foldl_advance_count (by omega) _ plain start
  · exact foldl_advance_overcount several _ plain (Nat.le_of_eq start.symm)
  · apply foldl_advance_count_apart several plain distinct _ start
    intro t _
    rw [opening_dataLinks]
    exact Finset.disjoint_empty_right _

/-- A method that comes twice is counted twice with two jobs, though its one data dependence is there once.
Overloads, and the same method in another package, are counted apart. -/
theorem repeated_method_counted_twice :
    let m : Method := ⟨"m", "m()", 1, 2, some (returning "1")⟩
    let n : Method := ⟨"m", "m(int)", 5, 2, some (returning "2")⟩
    let repeated := [inPackage "p" [m], inPackage "p" [m]]
    let different := [inPackage "p" [m, n], inPackage "q" [m]]
    (∃ r, build ⟨.trees, .unit, [], 1⟩ repeated = .ok r ∧
      r.summary.dataEdges = r.graph.dataEdges.length) ∧
    (∃ r, build ⟨.trees, .unit, [], 2⟩ repeated = .ok r ∧
      r.graph.dataEdges.length ≤ r.summary.dataEdges ∧
      (r.summary.dataEdges, r.graph.dataEdges.length) = (2, 1)) ∧
    ∃ r, build ⟨.trees, .unit, [], 2⟩ different = .ok r ∧
      r.summary.dataEdges = r.graph.dataEdges.length := by
  intro m n repeated different
  obtain ⟨one, builtOne, countedOnce, _⟩ := build_counts_dataEdges ⟨.trees, .unit, [], 1⟩ repeated
  obtain ⟨two, builtTwo, _, counted⟩ := build_counts_dataEdges ⟨.trees, .unit, [], 2⟩ repeated
  obtain ⟨apart, builtApart, _, countedApart⟩ := build_counts_dataEdges ⟨.trees, .unit, [], 2⟩ different
  refine ⟨⟨one, builtOne, countedOnce (Nat.le_refl 1)⟩, ⟨two, builtTwo, (counted (by decide)).1, ?_⟩,
    apart, builtApart, (countedApart (by decide)).2 (by decide)⟩
  have counts : ((build ⟨.trees, .unit, [], 2⟩ repeated).toOption.map fun r =>
      (r.summary.dataEdges, r.graph.dataEdges.length)) = some (2, 1) := by decide +kernel
  rw [builtTwo] at counts
  exact Option.some.inj counts

end Project
end ProgramDependence
