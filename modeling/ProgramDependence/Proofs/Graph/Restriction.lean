import ProgramDependence.Proofs.Flow.Search
import ProgramDependence.Proofs.Graph.Slice

/-! A slice is the part of a graph on the vertices that lead to its start. The vertices kept are
renumbered by their position, in their order, so two that show the same stay two; what they show and
the edges among them stay as they are. -/
namespace ProgramDependence.Graph

variable {g h : Graph} {kept : List Nat} {i j k s t : Nat} {label tag : String}

/-- There is a way from one vertex to another over edges of any tag, or they are the same. -/
def LeadsTo (g : Graph) : Nat → Nat → Prop :=
  Relation.ReflTransGen fun a b => ∃ tag, ⟨a, b, tag⟩ ∈ g.edges

/-- `h` is what of `g` leads to `start`, with vertex `k` of `h` for the one at position `k` of `kept`. -/
structure SlicedBy (g : Graph) (start : Nat) (kept : List Nat) (h : Graph) : Prop where
  ascending : kept.Pairwise (· < ·)
  mem_kept : ∀ i, i ∈ kept ↔ g.LeadsTo i start
  nodeCount : h.nodeCount = kept.length
  view : ∀ k i, kept[k]? = some i → ∃ shown, g.view i = .ok shown ∧ h.view k = .ok shown
  edges_ascending : h.edges.Pairwise (· < ·)
  mem_edges : ∀ s t tag, ⟨s, t, tag⟩ ∈ h.edges ↔
    ∃ i j, kept[s]? = some i ∧ kept[t]? = some j ∧ ⟨i, j, tag⟩ ∈ g.edges

/-! ### Restriction -/

theorem restrict_vertices (within : ∀ i ∈ kept, i < g.nodeCount) (k : Nat) :
    (g.restrict kept).vertices[k]? =
      kept[k]?.bind fun i => g.vertices[i]?.map fun v => ⟨v.view, v.label⟩ := by
  simp only [restrict]
  induction kept generalizing k with
  | nil => rfl
  | cons i kept ih =>
    have there : g.vertices[i]? = some _ := List.getElem?_eq_getElem (within i List.mem_cons_self)
    rw [List.filterMap_cons, there]
    simp only [Option.map_some]
    cases k with
    | zero => simp [there]
    | succ k =>
      rw [List.getElem?_cons_succ, List.getElem?_cons_succ]
      exact ih (fun i member => within i (List.mem_cons_of_mem _ member)) k

/-- A vertex that is kept shows what it showed. -/
theorem restrict_view (within : ∀ i ∈ kept, i < g.nodeCount) (there : kept[k]? = some i) :
    ∃ shown, g.view i = .ok shown ∧ (g.restrict kept).view k = .ok shown := by
  obtain ⟨v, vertex⟩ : ∃ v, g.vertices[i]? = some v :=
    ⟨_, List.getElem?_eq_getElem (within i (List.mem_of_getElem? there))⟩
  have anew : (g.restrict kept).vertices[k]? = some ⟨v.view, v.label⟩ := by
    rw [restrict_vertices within, there, Option.bind_some, vertex, Option.map_some]
  have shows := view_of_vertex anew
  exact ⟨v.view, view_of_vertex vertex, shows⟩

theorem mem_restrict_edges (distinct : kept.Nodup) : ⟨s, t, tag⟩ ∈ (g.restrict kept).edges ↔
    ∃ i j, kept[s]? = some i ∧ kept[t]? = some j ∧ ⟨i, j, tag⟩ ∈ g.edges := by
  simp only [restrict, List.mem_filterMap]
  constructor
  · rintro ⟨⟨i, j, tag⟩, member, kept?⟩
    obtain ⟨source, target, rfl⟩ := keepEdge_eq_some kept?
    exact ⟨i, j, (Search.idxOf?_iff distinct).mp source, (Search.idxOf?_iff distinct).mp target, member⟩
  · rintro ⟨i, j, source, target, member⟩
    refine ⟨⟨i, j, tag⟩, member, ?_⟩
    simp [keepEdge, (Search.idxOf?_iff distinct).mpr source, (Search.idxOf?_iff distinct).mpr target]

/-! ### Slices -/

theorem mem_leadingTo : i ∈ g.leadingTo k ↔ g.LeadsTo i k := by
  rw [leadingTo, mem_keptFrom, LeadsTo, ← Relation.reflTransGen_swap]
  simp only [mem_parentsIn]

theorem slicedBy_leadingTo (sound : Sound g) (bound : k < g.nodeCount) :
    g.SlicedBy k (g.leadingTo k) (g.restrict (g.leadingTo k)) := by
  have ascending := leadingTo_ascending g k
  have within (i : Nat) (member : i ∈ g.leadingTo k) : i < g.nodeCount := leadingTo_lt sound bound member
  constructor
  case ascending => exact ascending
  case mem_kept =>
    intro i
    exact mem_leadingTo
  case nodeCount => exact restrict_nodeCount _ within
  case view =>
    intro k i there
    exact restrict_view within there
  case edges_ascending => exact (restrict_sound sound _ ascending within).ascending
  case mem_edges =>
    intro s t tag
    exact mem_restrict_edges ascending.nodup

theorem mem_labelled_iff_label : k ∈ g.labelled label ↔ g.label k = .ok label := by
  rw [mem_labelled, Graph.label, vertex]
  cases g.vertices[k]? with
  | none => simp [Except.map]
  | some v => simp [Except.map]

/-- Slicing gives one graph for each vertex that shows the label, in their order, and that graph is
what leads to the vertex, renumbered in order. -/
theorem slice_exact (made : Reachable g) (label : String) :
    ∃ starts slices, g.slice label = .ok slices ∧ starts.Pairwise (· < ·) ∧
      (∀ k, k ∈ starts ↔ g.label k = .ok label) ∧
      List.Forall₂ (fun start h => ∃ kept, g.SlicedBy start kept h) starts slices := by
  refine ⟨g.labelled label, g.slices label, slice_of_sound made.sound label, ?_, ?_, ?_⟩
  · exact List.pairwise_lt_range.filter _
  · intro k
    exact mem_labelled_iff_label
  · rw [slices, List.forall₂_map_right_iff, List.forall₂_same]
    intro k member
    exact ⟨_, slicedBy_leadingTo made.sound (labelled_lt member)⟩

def mark (label : String) : Identity := ⟨label, "", "", "C", "", "m()", "stmt", .zero⟩

/-- Two vertices that came to show one label, among a circle, a loop and edges side by side. -/
def crossing : Graph where
  vertices := [⟨mark "x", "x"⟩, ⟨mark "y", "x"⟩, ⟨mark "z", "z"⟩, ⟨mark "w", "w"⟩]
  edges := [⟨0, 2, "t"⟩, ⟨0, 3, "t"⟩, ⟨2, 0, "t"⟩, ⟨3, 1, "t"⟩, ⟨2, 0, "u"⟩, ⟨2, 2, "u"⟩]

theorem crossing_reachable : Reachable crossing := by
  have vertices : Reachable ⟨crossing.vertices, []⟩ :=
    .relabel 1 "x" (.intern (mark "w") (.intern (mark "z") (.intern (mark "y")
      (.intern (mark "x") .empty)))) rfl
  have first : Reachable ⟨crossing.vertices, crossing.edges.take 3⟩ :=
    .addEdge 2 0 "t" (.addEdge 0 3 "t" (.addEdge 0 2 "t" vertices rfl) rfl) rfl
  exact .addEdge 2 2 "u" (.addEdge 2 0 "u" (.addEdge 3 1 "t" first rfl) rfl) rfl

theorem crossing_slices : Reachable crossing ∧
    crossing.slice "x" = .ok [crossing.restrict [0, 2], crossing.restrict [0, 1, 2, 3]] ∧
    (crossing.restrict [0, 2]).edges =
      [⟨0, 1, "t"⟩, ⟨1, 0, "t"⟩, ⟨1, 0, "u"⟩, ⟨1, 1, "u"⟩] ∧
    ∃ starts, (∀ k, k ∈ starts ↔ crossing.label k = .ok "x") ∧
      List.Forall₂ (fun start h => ∃ kept, crossing.SlicedBy start kept h) starts
        [crossing.restrict [0, 2], crossing.restrict [0, 1, 2, 3]] := by
  have sliced : crossing.slice "x" =
      .ok [crossing.restrict [0, 2], crossing.restrict [0, 1, 2, 3]] := by rfl
  obtain ⟨starts, slices, same, _, shown, parts⟩ := slice_exact crossing_reachable "x"
  obtain rfl := Except.ok.inj (sliced.symm.trans same)
  exact ⟨crossing_reachable, sliced, by decide, starts, shown, parts⟩

end ProgramDependence.Graph
