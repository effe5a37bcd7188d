import ProgramDependence.Proofs.Graph.Slice
import ProgramDependence.Proofs.Method.Ends
import ProgramDependence.Proofs.Project.Failure

/-! Methods stay apart. Nodes of different methods may come to be one node only if they agree on package,
class, file and signature, so no edge crosses from one method to another, whatever a run is given. Backward
from a node one stays in its method. -/
namespace ProgramDependence

namespace Identity.SameMethod

variable {i j k : Identity}

theorem refl (i : Identity) : i.SameMethod i := ⟨rfl, rfl, rfl, rfl⟩

theorem trans (first : i.SameMethod j) (second : j.SameMethod k) : i.SameMethod k :=
  ⟨first.package.trans second.package, first.className.trans second.className,
    first.sourceFile.trans second.sourceFile, first.method.trans second.method⟩

end Identity.SameMethod

namespace Graph

variable {g : Graph} {e : Edge} {i j : Identity} {k n : Nat} {label : String}

/-- In a graph that nobody relabelled a vertex shows its identity. -/
theorem Plain.view_eq (plain : Plain g) (there : g.identities[k]? = some i) : g.view k = .ok i := by
  simp only [identities, List.getElem?_map, Option.map_eq_some_iff] at there
  obtain ⟨v, found, rfl⟩ := there
  have shows : v.view = v.identity := by
    rw [Vertex.view, plain.unchanged v (List.mem_of_getElem? found)]
  simp only [view, vertex, found, ← shows]
  rfl

/-- No edge leaves its method or leads to an entry, and only the entry leads to a constant. -/
structure Separated (g : Graph) : Prop where
  kinds : ∀ v ∈ g.vertices, v.view.kind ∈
    ["entry", "constant", "branch", "switch", "return", "throw", "call", "assignments"]
  inside : ∀ e ∈ g.edges, ∃ source target, g.view e.source = .ok source ∧
    g.view e.target = .ok target ∧ source.SameMethod target
  notToEntry : ∀ e ∈ g.edges, ∀ target, g.view e.target = .ok target → target.kind ≠ "entry"
  toConstant : ∀ e ∈ g.edges, ∀ target, g.view e.target = .ok target → target.kind = "constant" →
    e.tag = "cdg" ∧ ∃ source, g.view e.source = .ok source ∧ source.kind = "entry"

/-- A slice holds its start, and nothing but vertices of the start's method. -/
def SliceInside (g : Graph) (start : Nat) (slice : Graph) : Prop :=
  ∃ i, g.view start = .ok i ∧ (∃ v ∈ slice.vertices, v.view = i) ∧
    ∀ v ∈ slice.vertices, v.view.SameMethod i

/-- Backward over edges the method stays the same. -/
theorem Separated.sameMethod (separated : Separated g)
    (way : Relation.ReflTransGen (fun a b => b ∈ parentsIn g.edges a) k n) (start : g.view k = .ok i)
    (found : g.view n = .ok j) : j.SameMethod i := by
  induction way generalizing j with
  | refl =>
    obtain rfl := Except.ok.inj (start.symm.trans found)
    exact .refl i
  | tail _ step ih =>
    obtain ⟨tag, member⟩ := mem_parentsIn.mp step
    obtain ⟨source, target, atSource, atTarget, same⟩ := separated.inside _ member
    obtain rfl := Except.ok.inj (atSource.symm.trans found)
    exact same.trans (ih atTarget)

theorem Separated.slices (separated : Separated g) (label : String) :
    List.Forall₂ g.SliceInside (g.labelled label) (g.slices label) := by
  rw [Graph.slices, List.forall₂_map_right_iff, List.forall₂_same]
  intro k member
  obtain ⟨v, there, _⟩ := mem_labelled.mp member
  have start := view_of_vertex there
  refine ⟨v.view, start, ⟨⟨v.view, v.label⟩, ?_, rfl⟩, ?_⟩
  · apply mem_restrict.mpr
    exact ⟨k, mem_keptFrom.mpr .refl, v, there, rfl⟩
  · intro w kept
    obtain ⟨n, leads, u, found, rfl⟩ := mem_restrict.mp kept
    change u.view.SameMethod v.view
    exact separated.sameMethod (mem_keptFrom.mp leads) start (view_of_vertex found)

end Graph

/-! ### Runs -/

namespace Project

variable {o : BuildOptions} {t : Task} {l : Link} {i : Identity}

/-- What a method adds is its own and regular. -/
theorem contribution_regular (o : BuildOptions) (t : Task) :
    (∀ l ∈ (contribution o t).links, l.Regular t.1 t.2) ∧
      ∀ i ∈ (contribution o t).mentions, i.MadeFor t.1 t.2 := by
  obtain ⟨c, m⟩ := t
  simp only [contribution]
  cases m.body with
  | none => simp
  | some raw =>
    simp only
    cases Body.ofJson? raw with
    | none => simp
    | some body =>
      simp only [contributionOf]
      cases analyzed : body.analyze o.policy with
      | error e => simp [Frame.entry_madeFor]
      | ok a =>
        have known := Body.analyzed analyzed
        exact ⟨fun l member => (Frame.links_join known member).regular, fun i => Frame.allNodes_madeFor⟩

theorem build_shows_regular (o : BuildOptions) (classes : List Class)
    (shown : ((tasksOf o classes).foldl (advance o) (opening o classes)).graph.Shows l) :
    ∃ t : Task, l.Regular t.1 t.2 := by
  rw [(build_extends o classes).shows_iff] at shown
  rcases shown with before | added
  · exact absurd before (Graph.not_shows_empty l)
  · obtain ⟨t, _, member⟩ := List.mem_flatMap.mp added
    exact ⟨t, (contribution_regular o t).1 l member⟩

theorem build_identity_madeFor (o : BuildOptions) (classes : List Class)
    (listed : i ∈ ((tasksOf o classes).foldl (advance o) (opening o classes)).graph.identities) :
    ∃ t : Task, i.MadeFor t.1 t.2 := by
  rw [(build_extends o classes).identities, mem_enlistAll, List.mem_append] at listed
  rcases listed with before | entry | added
  · cases before
  · obtain ⟨t, _, rfl⟩ := List.mem_map.mp entry
    exact ⟨t, Frame.entry_madeFor t.1 t.2⟩
  · obtain ⟨t, _, member⟩ := List.mem_flatMap.mp added
    exact ⟨t, (contribution_regular o t).2 i member⟩

/-- An edge of a run, with what its ends show. -/
theorem build_edge_regular (o : BuildOptions) (classes : List Class) {e : Edge}
    (member : e ∈ ((tasksOf o classes).foldl (advance o) (opening o classes)).graph.edges) :
    ∃ (t : Task) (source target : Identity),
      ((tasksOf o classes).foldl (advance o) (opening o classes)).graph.view e.source = .ok source ∧
      ((tasksOf o classes).foldl (advance o) (opening o classes)).graph.view e.target = .ok target ∧
      Link.Regular t.1 t.2 ⟨source, target, e.tag⟩ := by
  have plain := (build_extends o classes).plain
  obtain ⟨l, shown, source, target, tag⟩ := plain.mem_edges_iff.mp member
  obtain ⟨t, regular⟩ := build_shows_regular o classes shown
  refine ⟨t, l.source, l.target, plain.view_eq (plain.idOf?_iff.mp source),
    plain.view_eq (plain.idOf?_iff.mp target), ?_⟩
  rw [← tag]
  exact regular

theorem build_separated (o : BuildOptions) (classes : List Class) :
    ((tasksOf o classes).foldl (advance o) (opening o classes)).graph.Separated := by
  constructor
  case kinds =>
    intro v member
    obtain ⟨t, kind, _, _, _, same⟩ := build_identity_madeFor o classes (List.mem_map_of_mem member)
    change v.identity.kind ∈ _
    rw [same]
    change kind.name ∈ _
    cases kind <;> simp [NodeKind.name]
  case inside =>
    intro e member
    obtain ⟨t, source, target, atSource, atTarget, regular⟩ := build_edge_regular o classes member
    exact ⟨source, target, atSource, atTarget, regular.source.sameMethod regular.target⟩
  case notToEntry =>
    intro e member shown found
    obtain ⟨t, source, target, _, atTarget, regular⟩ := build_edge_regular o classes member
    obtain rfl := Except.ok.inj (atTarget.symm.trans found)
    exact regular.notToEntry
  case toConstant =>
    intro e member shown found constant
    obtain ⟨t, source, target, atSource, atTarget, regular⟩ := build_edge_regular o classes member
    obtain rfl := Except.ok.inj (atTarget.symm.trans found)
    obtain ⟨tag, entry⟩ := regular.toConstant constant
    exact ⟨tag, source, atSource, entry⟩

/-- No run joins two methods by an edge, so every slice stays in the method of its start. -/
theorem build_stays_within_methods (o : BuildOptions) (classes : List Class) :
    ∃ r, build o classes = .ok r ∧ r.graph.Separated ∧
      ∀ label, List.Forall₂ r.graph.SliceInside (r.graph.labelled label) (r.graph.slices label) := by
  have separated := build_separated o classes
  exact ⟨_, build_eq o classes, separated, separated.slices⟩

end Project
end ProgramDependence
