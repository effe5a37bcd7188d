import Mathlib.Data.List.Induction
import ProgramDependence.Proofs.Graph.Sound

/-! Graphs in which no vertex was relabelled and no identity occurs twice. Such a graph is its
list of identities and its edges, and its vertices are numbered in the order in which their
identities were first asked for. -/
namespace ProgramDependence

/-! ### Numbering by first mention -/

/-- Takes an identity into a list unless it is there. -/
def enlist (known : List Identity) (i : Identity) : List Identity :=
  if i ∈ known then known else known ++ [i]

def enlistAll (known : List Identity) (is : List Identity) : List Identity := is.foldl enlist known

variable {known is : List Identity} {i j : Identity}

@[simp] theorem mem_enlist : j ∈ enlist known i ↔ j ∈ known ∨ j = i := by
  unfold enlist
  split
  next member => exact ⟨.inl, fun h => h.elim id fun same => same ▸ member⟩
  next => simp

theorem enlist_initial (known : List Identity) (i : Identity) : known <+: enlist known i := by
  unfold enlist
  split
  · exact List.prefix_rfl
  · exact List.prefix_append known [i]

theorem enlist_nodup (distinct : known.Nodup) : (enlist known i).Nodup := by
  unfold enlist
  split
  · exact distinct
  next absent =>
    refine List.nodup_append.mpr ⟨distinct, List.nodup_singleton i, fun a member b single => ?_⟩
    rintro rfl
    exact absent (List.mem_singleton.mp single ▸ member)

@[simp] theorem enlistAll_nil : enlistAll known [] = known := rfl

@[simp] theorem enlistAll_cons : enlistAll known (i :: is) = enlistAll (enlist known i) is := rfl

theorem enlistAll_append (known is js : List Identity) :
    enlistAll known (is ++ js) = enlistAll (enlistAll known is) js := by
  simp [enlistAll]

@[simp] theorem mem_enlistAll : j ∈ enlistAll known is ↔ j ∈ known ∨ j ∈ is := by
  induction is generalizing known with
  | nil => simp
  | cons i is ih => rw [enlistAll_cons, ih, mem_enlist, List.mem_cons, or_assoc]

theorem enlistAll_initial (known is : List Identity) : known <+: enlistAll known is := by
  induction is generalizing known with
  | nil => exact List.prefix_rfl
  | cons i is ih => exact (enlist_initial known i).trans (ih (enlist known i))

/-- It makes no difference whether mentions are listed one by one or their first occurrences are
collected apart and then listed. -/
theorem enlistAll_first (known is : List Identity) :
    enlistAll known (enlistAll [] is) = enlistAll known is := by
  induction is using List.reverseRecOn with
  | nil => rfl
  | append_singleton is i ih =>
    rw [enlistAll_append [], enlistAll_append known is, ← ih]
    simp only [enlistAll_cons, enlistAll_nil]
    by_cases member : i ∈ enlistAll [] is
    · have present : i ∈ enlistAll known (enlistAll [] is) := mem_enlistAll.mpr (.inr member)
      rw [enlist, if_pos member, enlist, if_pos present]
    · rw [enlist, if_neg member, enlistAll_append]
      rfl

namespace Graph

variable {g h : Graph} {id source target : Nat} {tag : String}

def identities (g : Graph) : List Identity := g.vertices.map (·.identity)

@[simp] theorem length_identities (g : Graph) : g.identities.length = g.nodeCount := by
  simp [identities, nodeCount]

/-- Built by interning and linking only. -/
structure Plain (g : Graph) : Prop where
  sound : Sound g
  distinct : g.identities.Nodup
  unchanged : ∀ v ∈ g.vertices, v.label = v.identity.label

theorem empty_plain : Plain empty := ⟨empty_sound, .nil, by simp [empty]⟩

theorem Plain.vertices_eq (plain : Plain g) :
    g.vertices = g.identities.map fun i => ⟨i, i.label⟩ := by
  rw [identities, List.map_map]
  refine (List.map_id g.vertices).symm.trans (List.map_congr_left fun v member => ?_)
  obtain ⟨identity, label⟩ := v
  exact congrArg (Vertex.mk identity) (plain.unchanged _ member)

theorem idOf?_get (found : g.idOf? i = some id) : g.identities[id]? = some i := by
  obtain ⟨bound, same, _⟩ := List.findIdx?_eq_some_iff_getElem.mp found
  simp only [identities, List.getElem?_map, List.getElem?_eq_getElem bound, Option.map_some]
  exact congrArg some (of_decide_eq_true same)

theorem idOf?_eq_none : g.idOf? i = none ↔ i ∉ g.identities := by
  simp [idOf?, identities, List.findIdx?_eq_none_iff]

theorem intern_of_mem (member : i ∈ g.identities) :
    (g.intern i).1 = g ∧ (g.intern i).2 < g.nodeCount := by
  unfold intern
  split
  next id found => exact ⟨rfl, idOf?_lt found⟩
  next absent => exact absurd member (idOf?_eq_none.mp absent)

theorem intern_of_not_mem (absent : i ∉ g.identities) : g.intern i = (g.push i, g.nodeCount) := by
  simp only [intern, idOf?_eq_none.mpr absent]

theorem Plain.idOf?_iff (plain : Plain g) : g.idOf? i = some id ↔ g.identities[id]? = some i := by
  refine ⟨idOf?_get, fun there => ?_⟩
  have member : i ∈ g.identities := List.mem_of_getElem? there
  cases found : g.idOf? i with
  | none => exact absurd member (idOf?_eq_none.mp found)
  | some other =>
    have bound : other < g.identities.length := by simpa using idOf?_lt found
    exact congrArg some
      ((List.getElem?_inj bound plain.distinct).mp ((idOf?_get found).trans there.symm))

theorem intern_identities (g : Graph) (i : Identity) :
    (g.intern i).1.identities = enlist g.identities i := by
  unfold intern enlist
  split
  next id found =>
    rw [if_pos (List.mem_of_getElem? (idOf?_get found))]
  next absent =>
    rw [if_neg (idOf?_eq_none.mp absent)]
    simp [identities, push]

theorem intern_get (g : Graph) (i : Identity) :
    (g.intern i).1.identities[(g.intern i).2]? = some i := by
  unfold intern
  split
  next id found => exact idOf?_get found
  next => simp [identities, push, nodeCount]

theorem intern_plain (i : Identity) (plain : Plain g) : Plain (g.intern i).1 := by
  refine ⟨intern_sound i plain.sound, ?_, ?_⟩
  · rw [intern_identities]
    exact enlist_nodup plain.distinct
  · unfold intern
    split
    · exact plain.unchanged
    · intro v member
      rcases List.mem_append.mp member with old | new
      · exact plain.unchanged v old
      · rw [List.mem_singleton.mp new]

theorem addEdge_plain (done : g.addEdge source target tag = .ok h) (plain : Plain g) : Plain h := by
  have sound := addEdge_sound done plain.sound
  obtain ⟨_, _, rfl⟩ := addEdge_ok done
  exact ⟨sound, plain.distinct, plain.unchanged⟩

/-- Interning one after the other. -/
def internAll (g : Graph) (is : List Identity) : Graph := is.foldl (fun g i => (g.intern i).1) g

theorem internAll_plain (is : List Identity) (plain : Plain g) : Plain (g.internAll is) := by
  induction is generalizing g with
  | nil => exact plain
  | cons i is ih => exact ih (intern_plain i plain)

theorem internAll_identities (g : Graph) (is : List Identity) :
    (g.internAll is).identities = enlistAll g.identities is := by
  induction is generalizing g with
  | nil => rfl
  | cons i is ih => exact (ih (g.intern i).1).trans (by rw [intern_identities, enlistAll_cons])

@[simp] theorem internAll_edges (g : Graph) (is : List Identity) :
    (g.internAll is).edges = g.edges := by
  induction is generalizing g with
  | nil => rfl
  | cons i is ih => exact (ih (g.intern i).1).trans (intern_edges g i)

end Graph
end ProgramDependence
