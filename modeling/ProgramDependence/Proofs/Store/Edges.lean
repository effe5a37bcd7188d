import Std.Data.TreeMap.Lemmas
import Std.Data.TreeSet.Lemmas
import ProgramDependence.Graph.Store
import ProgramDependence.Proofs.Graph.Sound

/-! The nested map of edges, read as one list. The list is strictly ascending, holds just what the map
says, and is as long as the sets of targets are together; so an edge goes into the list where it goes
into the map. -/
namespace ProgramDependence.Store

variable {links : Tags} {s : Store} {source target : Nat} {tag : String} {e : Edge}

theorem compare_tag_lt {a b : String} : String.instOrd.compare a b = .lt ↔ a < b :=
  compareOfLessAndEq_eq_lt

theorem compare_id_lt {a b : Nat} : instOrdNat.compare a b = .lt ↔ a < b := Nat.compare_eq_lt

namespace Tags

/-- The targets of a source under a tag. -/
def targets (links : Tags) (tag : String) (source : Nat) : Targets :=
  ((links[tag]?.getD ∅)[source]?).getD ∅

theorem mem_edges : e ∈ links.edges ↔ e.target ∈ links.targets e.tag e.source := by
  simp only [edges, targets, List.mem_flatMap, Prod.exists, List.mem_map,
    Std.TreeMap.mem_toList_iff_getElem?_eq_some, Std.TreeSet.mem_toList]
  constructor
  · rintro ⟨tag, sources, tagged, source, targets, joined, target, member, rfl⟩
    simpa [tagged, joined] using member
  · intro member
    cases tagged : links[e.tag]? with
    | none => simp [tagged] at member
    | some sources =>
      cases joined : sources[e.source]? with
      | none => simp [tagged, joined] at member
      | some targets =>
        simp only [tagged, joined, Option.getD_some] at member
        exact ⟨_, _, tagged, _, _, joined, _, member, rfl⟩

theorem edges_ascending (links : Tags) : links.edges.Pairwise (· < ·) := by
  simp only [edges, List.pairwise_flatMap, List.pairwise_map]
  constructor
  · intro tagged _
    constructor
    -- targets of one source
    · intro joined _
      refine joined.2.ordered_toList.imp ?_
      intro a b before
      exact (Edge.lt_iff _ _).mpr (.inr ⟨rfl, .inr ⟨rfl, compare_id_lt.mp before⟩⟩)
    -- sources under one tag
    · refine tagged.2.ordered_keys_toList.imp fun before => ?_
      simp only [List.mem_map]
      rintro _ ⟨_, _, rfl⟩ _ ⟨_, _, rfl⟩
      exact (Edge.lt_iff _ _).mpr (.inr ⟨rfl, .inl (compare_id_lt.mp before)⟩)
  · refine links.ordered_keys_toList.imp fun before => ?_
    simp only [List.mem_flatMap, List.mem_map]
    rintro _ ⟨_, _, _, _, rfl⟩ _ ⟨_, _, _, _, rfl⟩
    exact (Edge.lt_iff _ _).mpr (.inl (compare_tag_lt.mp before))

theorem mem_targets_link : e.target ∈ (links.link source target tag).targets e.tag e.source ↔
    e = ⟨source, target, tag⟩ ∨ e.target ∈ links.targets e.tag e.source := by
  obtain ⟨s, t, u⟩ := e
  simp only [targets, link, Std.TreeMap.getElem?_alter, Edge.mk.injEq]
  by_cases sameTag : tag = u
  · subst sameTag
    by_cases sameSource : source = s
    · subst sameSource
      simp [Std.TreeSet.mem_insert, eq_comm (a := t)]
    · simp [sameSource, Ne.symm sameSource, Std.TreeMap.getElem?_alter]
  · simp [sameTag, Ne.symm sameTag]

theorem edges_link (links : Tags) (source target : Nat) (tag : String) :
    (links.link source target tag).edges = Ascending.insert ⟨source, target, tag⟩ links.edges := by
  have ascending := Ascending.insert_ascending ⟨source, target, tag⟩ _ (edges_ascending links)
  refine (edges_ascending _).eq_of_mem_iff ascending fun e => ?_
  rw [mem_edges, mem_targets_link, Ascending.mem_insert, mem_edges]

end Tags

theorem hasEdge_iff : s.hasEdge source target tag = true ↔ ⟨source, target, tag⟩ ∈ s.edges := by
  rw [edges, Tags.mem_edges, hasEdge, Tags.targets]
  cases s.links[tag]? with
  | none => simp
  | some sources =>
    simp only [Option.bind_some, Option.getD_some]
    cases sources[source]? <;> simp

theorem foldl_size (sources : List (Nat × Targets)) (tag : String) (n : Nat) :
    sources.foldl (fun n entry => n + entry.2.size) n = n + (sources.flatMap fun entry =>
      entry.2.toList.map fun target => (⟨entry.1, target, tag⟩ : Edge)).length := by
  induction sources generalizing n with
  | nil => rfl
  | cons entry sources ih =>
    rw [List.foldl_cons, ih, List.flatMap_cons, List.length_append, List.length_map,
      Std.TreeSet.length_toList, Nat.add_assoc]

theorem edgeCount_eq (s : Store) : s.edgeCount = s.edges.length := by
  have total (tags : List (String × Sources)) (n : Nat) :
      tags.foldl (fun n entry => entry.2.foldl (fun n _ targets => n + targets.size) n) n =
        n + (tags.flatMap fun entry => entry.2.toList.flatMap fun joined =>
          joined.2.toList.map fun target => (⟨joined.1, target, entry.1⟩ : Edge)).length := by
    induction tags generalizing n with
    | nil => rfl
    | cons entry tags ih =>
      rw [List.foldl_cons, ih, List.flatMap_cons, List.length_append,
        Std.TreeMap.foldl_eq_foldl_toList, foldl_size _ entry.1, Nat.add_assoc]
  rw [edgeCount, Std.TreeMap.foldl_eq_foldl_toList, total, Nat.zero_add]
  rfl

end ProgramDependence.Store
