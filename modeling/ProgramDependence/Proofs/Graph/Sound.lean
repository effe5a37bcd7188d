import Mathlib.Data.String.Basic
import ProgramDependence.Graph.Basic
import ProgramDependence.Proofs.Ascending

/-! What the operations of the store keep: edges stay ascending, and both ends of an edge stay
vertices of the graph. -/
namespace ProgramDependence

theorem Edge.lt_iff (a b : Edge) : a < b ↔ a.tag < b.tag ∨ (a.tag = b.tag ∧
    (a.source < b.source ∨ (a.source = b.source ∧ a.target < b.target))) := Iff.rfl

instance : IsStrictTotalOrder Edge (· < ·) where
  trichotomous a b notBefore notAfter := by
    rw [Edge.lt_iff] at notBefore notAfter
    obtain ⟨source, target, tag⟩ := a
    obtain ⟨source', target', tag'⟩ := b
    simp only [not_or, not_and, not_lt] at notBefore notAfter
    have sameTag : tag = tag' := le_antisymm notAfter.1 notBefore.1
    obtain ⟨sources, targets⟩ := notBefore.2 sameTag
    obtain ⟨sources', targets'⟩ := notAfter.2 sameTag.symm
    have sameSource : source = source' := Nat.le_antisymm sources' sources
    have sameTarget := Nat.le_antisymm (targets' sameSource.symm) (targets sameSource)
    subst sameTag sameSource sameTarget
    rfl
  irrefl a h := by simp [Edge.lt_iff] at h
  trans a b c first second := by
    rw [Edge.lt_iff] at *
    rcases first with tags | ⟨tags, ends⟩ <;> rcases second with tags' | ⟨tags', ends'⟩
    · exact .inl (lt_trans tags tags')
    · exact .inl (tags' ▸ tags)
    · exact .inl (tags ▸ tags')
    · exact .inr ⟨tags.trans tags', by omega⟩

namespace Graph

variable {g h : Graph} {i : Identity} {id source target : Nat} {label tag : String}

/-- Edges are a set in ascending order, and their ends are there. -/
structure Sound (g : Graph) : Prop where
  ascending : g.edges.Pairwise (· < ·)
  within : ∀ e ∈ g.edges, e.source < g.nodeCount ∧ e.target < g.nodeCount

theorem empty_sound : Sound empty := ⟨.nil, by simp [empty]⟩

/-! ### Vertices -/

@[simp] theorem push_nodeCount (g : Graph) (i : Identity) :
    (g.push i).nodeCount = g.nodeCount + 1 := by
  simp [push, nodeCount]

theorem push_sound (i : Identity) (sound : Sound g) : Sound (g.push i) := by
  refine ⟨sound.ascending, fun e member => ?_⟩
  obtain ⟨source, target⟩ := sound.within e member
  simp only [push_nodeCount]
  omega

theorem idOf?_lt (found : g.idOf? i = some id) : id < g.nodeCount := by
  obtain ⟨bound, _⟩ := List.findIdx?_eq_some_iff_getElem.mp found
  exact bound

@[simp] theorem intern_edges (g : Graph) (i : Identity) : (g.intern i).1.edges = g.edges := by
  unfold intern
  split <;> rfl

theorem intern_lt (g : Graph) (i : Identity) : (g.intern i).2 < (g.intern i).1.nodeCount := by
  unfold intern
  split
  next id found => exact idOf?_lt found
  next => simp

theorem intern_sound (i : Identity) (sound : Sound g) : Sound (g.intern i).1 := by
  unfold intern
  split
  · exact sound
  · exact push_sound i sound

theorem relabel_ok (done : g.relabel id label = .ok h) :
    h.edges = g.edges ∧ h.nodeCount = g.nodeCount := by
  unfold relabel at done
  split at done
  next v _ =>
    cases done
    simp [nodeCount]
  next => cases done

theorem relabel_of_lt (g : Graph) (label : String) (bound : id < g.nodeCount) :
    ∃ h, g.relabel id label = .ok h := by
  unfold relabel
  rw [List.getElem?_eq_getElem bound]
  exact ⟨_, rfl⟩

theorem relabel_sound (done : g.relabel id label = .ok h) (sound : Sound g) : Sound h := by
  obtain ⟨edges, count⟩ := relabel_ok done
  refine ⟨by rw [edges]; exact sound.ascending, fun e member => ?_⟩
  rw [count]
  exact sound.within e (edges ▸ member)

/-! ### Edges -/

theorem addEdge_ok (done : g.addEdge source target tag = .ok h) :
    source < g.nodeCount ∧ target < g.nodeCount ∧
      h = { g with edges := Ascending.insert ⟨source, target, tag⟩ g.edges } := by
  unfold addEdge at done
  split at done
  · cases done
  next hs =>
    split at done
    · cases done
    next ht =>
      cases done
      exact ⟨Nat.lt_of_not_le hs, Nat.lt_of_not_le ht, rfl⟩

theorem addEdge_of_lt (g : Graph) (tag : String) (hs : source < g.nodeCount)
    (ht : target < g.nodeCount) : g.addEdge source target tag =
      .ok { g with edges := Ascending.insert ⟨source, target, tag⟩ g.edges } := by
  simp [addEdge, Nat.not_le.mpr hs, Nat.not_le.mpr ht]

theorem addEdge_sound (done : g.addEdge source target tag = .ok h) (sound : Sound g) :
    Sound h := by
  obtain ⟨hs, ht, rfl⟩ := addEdge_ok done
  refine ⟨Ascending.insert_ascending _ _ sound.ascending, fun e member => ?_⟩
  rcases (Ascending.mem_insert _ _ _).mp member with rfl | old
  · exact ⟨hs, ht⟩
  · exact sound.within e old

/-- There is one edge more, unless it was there. -/
theorem addEdge_edgeCount (sound : Sound g) (done : g.addEdge source target tag = .ok h) :
    h.edgeCount = if g.hasEdge source target tag then g.edgeCount else g.edgeCount + 1 := by
  obtain ⟨_, _, rfl⟩ := addEdge_ok done
  simp only [edgeCount, hasEdge, List.contains_iff_mem]
  split
  next there =>
    have same : Ascending.insert ⟨source, target, tag⟩ g.edges = g.edges :=
      (Ascending.insert_ascending _ _ sound.ascending).eq_of_mem_iff sound.ascending fun e => by
        simp only [Ascending.mem_insert, or_iff_right_iff_imp]
        rintro rfl
        exact there
    rw [same]
  next absent => exact Ascending.length_insert absent

end Graph
end ProgramDependence
