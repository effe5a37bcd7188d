import Mathlib.Data.Finset.Card
import ProgramDependence.Proofs.Graph.Merge

/-! The links that a graph shows, as a finite set. A plain graph has one edge for each, so its edges can be
counted by what they stand for, and the edges that come of growing are the links that were not shown
before. -/
namespace ProgramDependence.Graph

variable {g h : Graph} {l : Link} {e e' : Edge}

/-- The link that an edge stands for. -/
def linkOf? (g : Graph) (e : Edge) : Option Link := do
  some ⟨← g.identities[e.source]?, ← g.identities[e.target]?, e.tag⟩

/-- All links shown. -/
def shown (g : Graph) : Finset Link := (g.edges.filterMap g.linkOf?).toFinset

theorem linkOf?_eq_some : g.linkOf? e = some l ↔ g.StandsFor e l := by
  obtain ⟨source, target, tag⟩ := l
  simp [linkOf?, StandsFor, Option.bind_eq_some_iff]

@[simp] theorem mem_shown : l ∈ g.shown ↔ g.Shows l := by
  simp only [shown, List.mem_toFinset, List.mem_filterMap, linkOf?_eq_some, shows_iff_standsFor]

theorem shown_empty : empty.shown = ∅ := rfl

theorem Plain.standsFor_inj (plain : Plain g) (first : g.StandsFor e l) (second : g.StandsFor e' l) :
    e = e' := by
  obtain ⟨source, target, tag⟩ := first
  obtain ⟨source', target', tag'⟩ := second
  have sources : e.source = e'.source :=
    (List.getElem?_inj (List.getElem?_eq_some_iff.mp source).1 plain.distinct).mp
      (source.trans source'.symm)
  have targets : e.target = e'.target :=
    (List.getElem?_inj (List.getElem?_eq_some_iff.mp target).1 plain.distinct).mp
      (target.trans target'.symm)
  have tags : e.tag = e'.tag := tag.trans tag'.symm
  cases e
  cases e'
  simp_all

/-- No two edges stand for one link. -/
theorem Plain.card_links (plain : Plain g) {edges : List Edge} (part : edges.Sublist g.edges) :
    (edges.filterMap g.linkOf?).toFinset.card = edges.length := by
  have once : (edges.filterMap g.linkOf?).Nodup := by
    apply List.Nodup.filterMap
    · intro e e' l first second
      exact plain.standsFor_inj (linkOf?_eq_some.mp first) (linkOf?_eq_some.mp second)
    · exact part.nodup plain.sound.ascending.nodup
  have each : ∀ e ∈ edges, (g.linkOf? e).isSome := by
    intro e member
    obtain ⟨source, target⟩ := plain.sound.within e (part.subset member)
    rw [← length_identities] at source target
    simp [linkOf?, List.getElem?_eq_getElem source, List.getElem?_eq_getElem target]
  rw [List.toFinset_card_of_nodup once]
  exact List.filterMap_length_eq_length.mpr each

/-- There are as many edges as links shown. -/
theorem Plain.card_shown (plain : Plain g) : g.shown.card = g.edgeCount := plain.card_links (.refl _)

theorem Extends.shown {is : List Identity} {ls : List Link} (extends' : Extends g is ls h) :
    h.shown = g.shown ∪ ls.toFinset := by
  ext l
  simp only [mem_shown, Finset.mem_union, List.mem_toFinset, extends'.shows_iff]

/-- New edges are the links that were not shown before. -/
theorem Extends.edgeCount_eq {is : List Identity} {ls : List Link} (extends' : Extends g is ls h)
    (plain : Plain g) : h.edgeCount = (ls.toFinset \ g.shown).card + g.edgeCount := by
  rw [← extends'.plain.card_shown, ← plain.card_shown, extends'.shown, Finset.union_comm]
  exact (Finset.card_sdiff_add_card ls.toFinset g.shown).symm

end ProgramDependence.Graph
