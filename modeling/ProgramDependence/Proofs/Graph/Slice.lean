import ProgramDependence.Proofs.Graph.Reachable

/-! Slices hold what leads to their start. Cut from a sound graph vertex by vertex, they come out without a
failure. -/
namespace ProgramDependence.Graph

variable {g : Graph} {k i s : Nat} {label : String} {kept : List Nat}

theorem mem_restrict {w : Vertex} : w ∈ (g.restrict kept).vertices ↔
    ∃ k ∈ kept, ∃ v, g.vertices[k]? = some v ∧ ⟨v.view, v.label⟩ = w := by
  simp only [restrict, List.mem_filterMap, Option.map_eq_some_iff]

/-- A slice is a part of the graph and holds at least its start. -/
theorem slices_nodeCount {h : Graph} (sound : Sound g) (member : h ∈ g.slices label) :
    0 < h.nodeCount ∧ h.nodeCount ≤ g.nodeCount := by
  obtain ⟨k, start, rfl⟩ := List.mem_map.mp member
  have within (i : Nat) (member : i ∈ g.leadingTo k) : i < g.nodeCount :=
    leadingTo_lt sound (labelled_lt start) member
  rw [restrict_nodeCount _ within]
  refine ⟨List.length_pos_of_mem (mem_keptFrom.mpr .refl), ?_⟩
  have inside : g.leadingTo k ⊆ List.range g.nodeCount := fun i member => List.mem_range.mpr (within i member)
  have few := (List.subperm_of_subset (leadingTo_ascending g k).nodup inside).length_le
  simpa using few

/-! ### Vertex by vertex -/

theorem view_of_vertex {v : Vertex} (there : g.vertices[k]? = some v) : g.view k = .ok v.view := by
  simp only [view, vertex, there]
  rfl

/-- Vertices that are there can all be made anew. -/
theorem pushKept_of_lt (kept : List Nat) (within : ∀ k ∈ kept, k < g.nodeCount) :
    g.pushKept kept = .ok ⟨(g.restrict kept).vertices, []⟩ := by
  suffices pushed : ∀ part : Graph, kept.foldlM (fun part i => (g.view i).map part.push) part =
      .ok { part with vertices := part.vertices ++ (g.restrict kept).vertices } from pushed .empty
  induction kept with
  | nil =>
    intro part
    simp only [restrict, List.filterMap_nil, List.append_nil]
    rfl
  | cons k kept ih =>
    intro part
    have there : g.vertices[k]? = some _ := List.getElem?_eq_getElem (within k List.mem_cons_self)
    rw [List.foldlM_cons, view_of_vertex there]
    refine (ih (fun k' member => within k' (List.mem_cons_of_mem k member)) _).trans ?_
    simp [restrict, push, there, Vertex.view]

/-- Edges that come in order are added at the end. -/
theorem addKept_ascending (kept : List Nat) (part : Graph) (edges : List Edge)
    (ascending : (part.edges ++ edges.filterMap (keepEdge kept)).Pairwise (· < ·))
    (count : part.nodeCount = kept.length) :
    addKept kept part edges = .ok { part with edges := part.edges ++ edges.filterMap (keepEdge kept) } := by
  induction edges generalizing part with
  | nil =>
    simp only [List.filterMap_nil, List.append_nil]
    rfl
  | cons e edges ih =>
    rw [addKept, List.foldlM_cons]
    cases kept? : keepEdge kept e with
    | none =>
      rw [List.filterMap_cons_none kept?] at ascending ⊢
      exact ih part ascending count
    | some e' =>
      rw [List.filterMap_cons_some kept?] at ascending ⊢
      obtain ⟨source, target, _⟩ := keepEdge_eq_some kept?
      obtain ⟨_, _, before⟩ := List.pairwise_append.mp ascending
      have last : Ascending.insert e' part.edges = part.edges ++ [e'] :=
        Ascending.insert_after e' part.edges fun e member => before e member e' List.mem_cons_self
      have added := addEdge_of_lt part e'.tag (count ▸ idxOf?_lt_length source)
        (count ▸ idxOf?_lt_length target)
      rw [last] at added
      simp only [added]
      refine (ih { part with edges := part.edges ++ [e'] } ?_ count).trans ?_
      · simpa using ascending
      · simp

theorem sliceFrom_of_sound (sound : Sound g) (bound : k < g.nodeCount) :
    g.sliceFrom k = .ok (g.restrict (g.leadingTo k)) := by
  have within (i : Nat) (member : i ∈ g.leadingTo k) : i < g.nodeCount := leadingTo_lt sound bound member
  have restricted := restrict_sound sound _ (leadingTo_ascending g k) within
  simp only [sliceFrom, pushKept_of_lt _ within]
  exact addKept_ascending _ _ _ restricted.ascending (restrict_nodeCount _ within)

/-- Slicing fails on no graph whose edges end at its vertices. -/
theorem slice_of_sound (sound : Sound g) (label : String) : g.slice label = .ok (g.slices label) := by
  have all (starts : List Nat) (within : ∀ k ∈ starts, k < g.nodeCount) :
      starts.mapM g.sliceFrom = .ok (starts.map fun k => g.restrict (g.leadingTo k)) := by
    induction starts with
    | nil => rfl
    | cons k starts ih =>
      rw [List.mapM_cons, sliceFrom_of_sound sound (within k List.mem_cons_self),
        ih fun k' member => within k' (List.mem_cons_of_mem k member)]
      rfl
  exact all _ fun k member => labelled_lt member

end ProgramDependence.Graph
