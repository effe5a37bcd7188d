import ProgramDependence.Proofs.Graph.Numbers
import ProgramDependence.Proofs.Graph.Restriction

/-! What a graph holds once it absorbed another. Each absorbed vertex stands where its identity is first
listed. The label seen there is the last one that was shown in place of the label the vertex was made with, so
absorbing the same graph again changes nothing. -/
namespace ProgramDependence

/-- New identities follow those already known, in the order of their first mention. -/
theorem enlistAll_eq_append (known is : List Identity) :
    enlistAll known is = known ++ (is.filter (· ∉ known)).eraseDups := by
  induction is using List.reverseRecOn with
  | nil => simp
  | append_singleton is i ih =>
    have last : enlistAll known (is ++ [i]) = enlist (enlistAll known is) i := by
      rw [enlistAll_append]
      rfl
    rw [last, enlist, List.filter_append, List.eraseDups_append, ← List.append_assoc, ← ih]
    by_cases old : i ∈ known
    · simp [old]
    · by_cases again : i ∈ is
      · simp [old, again, List.removeAll]
      · simp [old, again, List.removeAll, List.eraseDups_cons]

namespace Graph

variable {g f h : Graph} {m m' : Merged} {done : List Vertex} {places : List Nat} {v w : Vertex}
  {i : Identity} {k p : Nat} {label : String}

/-! ### Labels -/

/-- The last label that one of the vertices shows for an identity, other than the one it was made with. -/
def lastShown? (vertices : List Vertex) (i : Identity) : Option String :=
  (vertices.filter fun v => v.identity = i ∧ v.identity.label ≠ v.label).getLast?.map (·.label)

theorem lastShown?_append (done : List Vertex) (v : Vertex) (i : Identity) :
    lastShown? (done ++ [v]) i =
      if v.identity = i ∧ v.identity.label ≠ v.label then some v.label else lastShown? done i := by
  rw [lastShown?, List.filter_append]
  split
  next relabelled =>
    rw [List.filter_cons_of_pos (by simpa using relabelled), List.filter_nil, List.getLast?_concat,
      Option.map_some]
  next not =>
    rw [List.filter_cons_of_neg (by simpa using not), List.filter_nil, List.append_nil, lastShown?]

theorem lastShown?_eq_none_iff :
    lastShown? done i = none ↔ ∀ v ∈ done, v.identity = i → v.identity.label = v.label := by
  rw [lastShown?, Option.map_eq_none_iff, List.getLast?_eq_none_iff, List.filter_eq_nil_iff]
  simp

theorem exists_of_lastShown? (found : lastShown? done i = some label) :
    ∃ v ∈ done, v.identity = i ∧ v.identity.label ≠ v.label ∧ v.label = label := by
  obtain ⟨v, last, rfl⟩ := Option.map_eq_some_iff.mp found
  have member := List.mem_filter.mp (List.mem_of_getLast? last)
  obtain ⟨same, relabelled⟩ := of_decide_eq_true member.2
  exact ⟨v, member.1, same, relabelled, rfl⟩

/-- The label of a vertex that may be new. -/
def labelBefore (g : Graph) (k : Nat) (i : Identity) : String :=
  (g.vertices[k]?.map (·.label)).getD i.label

/-- The label that vertex `k` shows after `g` absorbed `done`. Only the first vertex of an identity
is relabelled. -/
def labelAfter (g : Graph) (done : List Vertex) (known : List Identity) (k : Nat) (i : Identity) : String :=
  (if known.idxOf i = k then lastShown? done i else none).getD (g.labelBefore k i)

theorem intern_vertex (g : Graph) (i : Identity) : (g.intern i).1.vertices[k]? = some w ↔
    g.vertices[k]? = some w ∨ (i ∉ g.identities ∧ k = g.nodeCount ∧ w = ⟨i, i.label⟩) := by
  by_cases member : i ∈ g.identities
  · simp [(intern_of_mem member).1, member]
  · simp only [intern_of_not_mem member, push, List.getElem?_append, nodeCount, member]
    by_cases bound : k < g.vertices.length
    · simp [bound, Nat.ne_of_lt bound]
    · simp only [bound, ↓reduceIte, List.getElem?_singleton, List.getElem?_eq_none (Nat.le_of_not_lt bound)]
      by_cases last : k = g.vertices.length
      · simp [last, eq_comm]
      · simp [last]
        omega

theorem relabel_vertex (ok : g.relabel p label = .ok h) (k : Nat) :
    h.vertices[k]? = g.vertices[k]?.map fun v => { v with label := if k = p then label else v.label } := by
  unfold relabel at ok
  split at ok
  next v there =>
    cases ok
    obtain ⟨bound, rfl⟩ := List.getElem?_eq_some_iff.mp there
    rw [List.getElem?_set]
    by_cases same : p = k
    · subst same
      simp [bound]
    · simp [same, Ne.symm same]
  next => cases ok

/-- A vertex that shows another label than it was made with relabels the one it is interned as. -/
theorem absorbVertex_vertex (ok : absorbVertex m v = .ok m') (k : Nat) :
    m'.1.vertices[k]? = (m.1.intern v.identity).1.vertices[k]?.map fun w =>
      { w with label :=
          if k = m.1.identities.idxOf v.identity ∧ v.identity.label ≠ v.label then v.label
          else w.label } := by
  simp only [absorbVertex, intern_eq_idxOf] at ok
  split at ok
  next same =>
    cases ok
    simp [same]
  next relabelled =>
    cases done : (m.1.intern v.identity).1.relabel (m.1.identities.idxOf v.identity) v.label with
    | error e => simp [done, Except.map] at ok
    | ok h =>
      simp only [done, Except.map] at ok
      cases ok
      simp only [relabel_vertex done k, relabelled, ne_eq, not_false_eq_true, and_true]

/-- `m` is `g` with the vertices `done` absorbed, each to where its identity is first listed. -/
structure Labelled (g : Graph) (done : List Vertex) (m : Merged) : Prop where
  vertices : VerticesAbsorbed g done m
  places : m.2 = done.map fun v => m.1.identities.idxOf v.identity
  labels : ∀ k w, m.1.vertices[k]? = some w → w.label = g.labelAfter done m.1.identities k w.identity

theorem labelled_nil (g : Graph) : Labelled g [] (g, []) where
  vertices := verticesAbsorbed_nil g
  places := rfl
  labels k w there := by simp [labelAfter, labelBefore, lastShown?, there]

theorem Labelled.mem (labelled : Labelled g done m) (member : v ∈ done) :
    v.identity ∈ m.1.identities := by
  rw [labelled.vertices.identities, mem_enlistAll]
  exact .inr (List.mem_map_of_mem member)

theorem Labelled.initial (labelled : Labelled g done m) : g.identities <+: m.1.identities := by
  rw [labelled.vertices.identities]
  exact enlistAll_initial g.identities _

theorem Labelled.count_le (labelled : Labelled g done m) : g.nodeCount ≤ m.1.nodeCount := by
  rw [← length_identities, ← length_identities]
  exact labelled.initial.length_le

theorem identity_of_vertex (there : g.vertices[k]? = some w) : g.identities[k]? = some w.identity := by
  simp [identities, there]

/-- The numbers of identities already listed stay. -/
theorem idxOf_enlist_of_mem {known : List Identity} {j : Identity} (member : j ∈ known) :
    (enlist known i).idxOf j = known.idxOf j := by
  obtain ⟨rest, whole⟩ := enlist_initial known i
  rw [← whole, List.idxOf_append_of_mem member]

theorem eq_of_idxOf {known : List Identity} {j : Identity} (here : known[k]? = some j)
    (place : known.idxOf i = k) : i = j := by
  obtain ⟨bound, rfl⟩ := List.getElem?_eq_some_iff.mp here
  subst place
  exact (List.getElem_idxOf bound).symm

section Step

variable (labelled : Labelled g done m)
include labelled

theorem Labelled.label_of_old (there : m.1.vertices[k]? = some w) :
    (if k = m.1.identities.idxOf v.identity ∧ v.identity.label ≠ v.label then v.label else w.label) =
      g.labelAfter (done ++ [v]) (enlist m.1.identities v.identity) k w.identity := by
  have here := identity_of_vertex there
  rw [labelAfter, idxOf_enlist_of_mem (List.mem_of_getElem? here), lastShown?_append]
  split
  next changed =>
    obtain ⟨place, relabelled⟩ := changed
    have same := eq_of_idxOf here place.symm
    rw [if_pos (same ▸ place.symm), if_pos ⟨same, relabelled⟩]
    rfl
  next not =>
    have before : ¬((m.1.identities.idxOf w.identity = k) ∧ v.identity = w.identity ∧
        v.identity.label ≠ v.label) := by
      rintro ⟨place, same, relabelled⟩
      exact not ⟨by rw [same, place], relabelled⟩
    rw [labelled.labels k w there, labelAfter]
    by_cases place : m.1.identities.idxOf w.identity = k
    · rw [if_pos place, if_pos place, if_neg fun changed => before ⟨place, changed⟩]
    · rw [if_neg place, if_neg place]

theorem Labelled.label_of_new (absent : v.identity ∉ m.1.identities) :
    (if v.identity.label ≠ v.label then v.label else v.identity.label) =
      g.labelAfter (done ++ [v]) (enlist m.1.identities v.identity) m.1.nodeCount v.identity := by
  have past := labelled.count_le
  have before : g.labelBefore m.1.nodeCount v.identity = v.identity.label := by
    rw [labelBefore, List.getElem?_eq_none past]
    rfl
  have last : (enlist m.1.identities v.identity).idxOf v.identity = m.1.nodeCount := by
    rw [idxOf_enlist, List.idxOf_eq_length absent, length_identities]
  have nothing : lastShown? done v.identity = none := by
    apply lastShown?_eq_none_iff.mpr
    intro w member same
    exact absurd (same ▸ labelled.mem member) absent
  rw [labelAfter, if_pos last, lastShown?_append, before, nothing]
  by_cases relabelled : v.identity.label = v.label
  · simp [relabelled]
  · simp [relabelled]

theorem absorbVertex_labelled (v : Vertex) :
    ∃ m', absorbVertex m v = .ok m' ∧ Labelled g (done ++ [v]) m' := by
  obtain ⟨m', ok, vertices⟩ := verticesAbsorbed_snoc labelled.vertices v
  obtain ⟨h, ok', _, listed⟩ := absorbVertex_ok m v
  obtain rfl := Except.ok.inj (ok.symm.trans ok')
  refine ⟨_, ok, vertices, ?_, ?_⟩
  · have kept : (done.map fun w => h.identities.idxOf w.identity) = m.2 := by
      rw [labelled.places]
      apply List.map_congr_left
      intro w member
      rw [listed, idxOf_enlist_of_mem (labelled.mem member)]
    rw [List.map_append, kept, List.map_singleton, listed, idxOf_enlist, intern_eq_idxOf]
  · intro k w there
    rw [absorbVertex_vertex ok] at there
    obtain ⟨w, found, rfl⟩ := Option.map_eq_some_iff.mp there
    simp only [listed]
    rcases (intern_vertex m.1 v.identity).mp found with old | ⟨absent, rfl, rfl⟩
    · exact labelled.label_of_old old
    · rw [← labelled.label_of_new absent, List.idxOf_eq_length absent, length_identities]
      simp only [true_and]

end Step

theorem absorbVertices_labelled (labelled : Labelled g done m) (vertices : List Vertex) :
    ∃ m', vertices.foldlM absorbVertex m = .ok m' ∧ Labelled g (done ++ vertices) m' := by
  induction vertices generalizing m done with
  | nil => exact ⟨m, rfl, by simpa using labelled⟩
  | cons v vertices ih =>
    obtain ⟨one, ok, first⟩ := absorbVertex_labelled labelled v
    obtain ⟨m', rest, all⟩ := ih first
    refine ⟨m', ?_, by simpa using all⟩
    simp only [List.foldlM_cons, ok]
    exact rest

/-! ### Edges -/

/-- What becomes of an edge when its ends go to their places. -/
def Moved (places : List Nat) (e e' : Edge) : Prop :=
  places[e.source]? = some e'.source ∧ places[e.target]? = some e'.target ∧ e.tag = e'.tag

theorem absorbEdge_moved {e : Edge} (ok : absorbEdge places g e = .ok h) (e' : Edge) :
    e' ∈ h.edges ↔ e' ∈ g.edges ∨ Moved places e e' := by
  unfold absorbEdge at ok
  split at ok
  next source target atSource atTarget =>
    obtain ⟨_, _, rfl⟩ := addEdge_ok ok
    obtain ⟨source', target', tag'⟩ := e'
    simp only [Ascending.mem_insert, Moved, atSource, atTarget, Edge.mk.injEq, Option.some.injEq]
    grind
  next => cases ok
  next => cases ok

theorem absorbEdges_moved {edges : List Edge} (ok : edges.foldlM (absorbEdge places) g = .ok h) (e' : Edge) :
    e' ∈ h.edges ↔ e' ∈ g.edges ∨ ∃ e ∈ edges, Moved places e e' := by
  induction edges generalizing g with
  | nil =>
    cases ok
    simp
  | cons e edges ih =>
    cases first : absorbEdge places g e with
    | error _ =>
      simp only [List.foldlM_cons, first] at ok
      cases ok
    | ok one =>
      simp only [List.foldlM_cons, first] at ok
      rw [ih ok, absorbEdge_moved first, or_assoc]
      simp only [List.mem_cons, exists_eq_or_imp]

/-! ### The whole graph -/

theorem absorb_labelled (sound : Sound g) (fSound : Sound f) : ∃ m h,
    g.absorb f = .ok (h, m.2) ∧ Labelled g f.vertices m ∧ h.vertices = m.1.vertices ∧ Sound h ∧
      ∀ e', e' ∈ h.edges ↔ e' ∈ g.edges ∨ ∃ e ∈ f.edges, Moved m.2 e e' := by
  obtain ⟨m, h, ok, _, absorbed, vertices, hSound, _⟩ := absorb_ok sound fSound
  obtain ⟨m', ok', labelled⟩ := absorbVertices_labelled (labelled_nil g) f.vertices
  obtain rfl := Except.ok.inj (ok.symm.trans ok')
  rw [List.nil_append] at labelled
  refine ⟨m, h, absorbed, labelled, vertices, hSound, ?_⟩
  have run : g.absorb f = f.edges.foldlM (absorbEdge m.2) m.1 >>= fun h => .ok (h, m.2) := by
    simp only [absorb, ok]
    rfl
  have added : f.edges.foldlM (absorbEdge m.2) m.1 = .ok h := by
    rw [run] at absorbed
    cases edges : f.edges.foldlM (absorbEdge m.2) m.1 with
    | error e =>
      rw [edges] at absorbed
      cases absorbed
    | ok h' =>
      rw [edges] at absorbed
      cases absorbed
      rfl
  intro e'
  rw [absorbEdges_moved added, labelled.vertices.edges]

/-- The vertices of `f` are at `places` in `h`, which holds `g` and `f` and nothing else. -/
structure Absorbed (g f h : Graph) (places : List Nat) : Prop where
  length : places.length = f.nodeCount
  identified : ∀ j < f.nodeCount, ∀ k < f.nodeCount,
    (places[j]? = places[k]? ↔ f.identities[j]? = f.identities[k]?)
  /-- What is in `g` keeps its number, and new identities are numbered on in the order of their first
  mention. -/
  identities : h.identities = g.identities ++ (f.identities.filter (· ∉ g.identities)).eraseDups
  placed : ∀ k p : Nat, places[k]? = some p → h.identities[p]? = f.identities[k]?
  ascending : h.edges.Pairwise (· < ·)
  mem_edges : ∀ e', e' ∈ h.edges ↔ e' ∈ g.edges ∨ ∃ e ∈ f.edges, Moved places e e'
  shown : f.identities.Nodup → ∀ (k : Nat) (v : Vertex) (p : Nat), f.vertices[k]? = some v →
    places[k]? = some p → v.identity ∉ g.identities ∨ v.label ≠ v.identity.label →
      h.label p = .ok v.label
  kept : ∀ p < g.nodeCount, (∀ (k : Nat) (v : Vertex), f.vertices[k]? = some v → places[k]? = some p →
    v.label = v.identity.label) → h.label p = g.label p

theorem label_of_vertex (there : g.vertices[k]? = some v) : g.label k = .ok v.label := by
  simp only [Graph.label, vertex, there]
  rfl

section Result

variable (labelled : Labelled g f.vertices m)
include labelled

theorem Labelled.placed (there : f.vertices[k]? = some v) (place : m.2[k]? = some p) :
    m.1.identities.idxOf v.identity = p ∧ ∃ w, m.1.vertices[p]? = some w ∧ w.identity = v.identity := by
  have here : m.1.identities.idxOf v.identity = p := by
    simpa [labelled.places, there] using place
  have bound : p < m.1.identities.length := by
    rw [← here]
    exact List.idxOf_lt_length_of_mem (labelled.mem (List.mem_of_getElem? there))
  have inside : p < m.1.vertices.length := by simpa [Graph.identities] using bound
  refine ⟨here, m.1.vertices[p], List.getElem?_eq_getElem inside, ?_⟩
  exact (eq_of_idxOf (identity_of_vertex (List.getElem?_eq_getElem inside)) here).symm

theorem Labelled.identified {j : Nat} (first : j < f.nodeCount) (second : k < f.nodeCount) :
    m.2[j]? = m.2[k]? ↔ f.identities[j]? = f.identities[k]? := by
  have there : f.vertices[j]? = some f.vertices[j] := List.getElem?_eq_getElem first
  have there' : f.vertices[k]? = some f.vertices[k] := List.getElem?_eq_getElem second
  rw [identity_of_vertex there, identity_of_vertex there', labelled.places, List.getElem?_map,
    List.getElem?_map, there, there', Option.map_some, Option.map_some, Option.some_inj, Option.some_inj]
  exact List.idxOf_inj (labelled.mem (List.getElem_mem first))

/-- The one vertex with its identity decides the label. -/
theorem Labelled.shown (distinct : f.identities.Nodup) (there : f.vertices[k]? = some v)
    (place : m.2[k]? = some p)
    (cause : v.identity ∉ g.identities ∨ v.label ≠ v.identity.label) : m.1.label p = .ok v.label := by
  obtain ⟨here, w, at_p, same⟩ := labelled.placed there place
  have only (u : Vertex) (member : u ∈ f.vertices) (twin : u.identity = v.identity) : u = v :=
    List.inj_on_of_nodup_map distinct member (List.mem_of_getElem? there) twin
  rw [label_of_vertex at_p, labelled.labels p w at_p, same, labelAfter, if_pos here]
  cases last : lastShown? f.vertices v.identity with
  | some label =>
    obtain ⟨u, member, twin, _, rfl⟩ := exists_of_lastShown? last
    rw [only u member twin]
    rfl
  | none =>
    have unchanged : v.identity.label = v.label :=
      lastShown?_eq_none_iff.mp last v (List.mem_of_getElem? there) rfl
    have new : v.identity ∉ g.identities := cause.resolve_right fun changed => changed unchanged.symm
    have past : g.vertices[p]? = none := by
      cases old : g.vertices[p]? with
      | none => rfl
      | some u =>
        have listed := identity_of_vertex old
        rw [← eq_of_idxOf (getElem?_of_initial labelled.initial listed) here] at listed
        exact absurd (List.mem_of_getElem? listed) new
    rw [labelBefore, past]
    exact congrArg Except.ok unchanged

theorem Labelled.kept (bound : p < g.nodeCount) (others : ∀ (k : Nat) (v : Vertex),
    f.vertices[k]? = some v → m.2[k]? = some p → v.label = v.identity.label) :
    m.1.label p = g.label p := by
  have there : g.vertices[p]? = some g.vertices[p] := List.getElem?_eq_getElem bound
  have inside : p < m.1.vertices.length := Nat.lt_of_lt_of_le bound labelled.count_le
  have at_p : m.1.vertices[p]? = some m.1.vertices[p] := List.getElem?_eq_getElem inside
  have nothing : (if m.1.identities.idxOf m.1.vertices[p].identity = p then
      lastShown? f.vertices m.1.vertices[p].identity else none) = none := by
    split
    next here =>
      apply lastShown?_eq_none_iff.mpr
      intro v member same
      obtain ⟨k, at_k⟩ := List.getElem?_of_mem member
      have place : m.2[k]? = some p := by simp [labelled.places, at_k, same, here]
      exact (others k v at_k place).symm
    next => rfl
  rw [label_of_vertex there, label_of_vertex at_p, labelled.labels p _ at_p, labelAfter, nothing,
    labelBefore, there]
  rfl

end Result

theorem vertices_ext (same : g.identities = h.identities) (labels : ∀ (k : Nat) (v w : Vertex),
    g.vertices[k]? = some v → h.vertices[k]? = some w → v.label = w.label) : g.vertices = h.vertices := by
  have length : g.vertices.length = h.vertices.length := by
    simpa [Graph.identities] using congrArg List.length same
  apply List.ext_getElem length
  intro k first second
  have there := List.getElem?_eq_getElem first
  have there' := List.getElem?_eq_getElem second
  have identity : g.vertices[k].identity = h.vertices[k].identity := by
    apply Option.some.inj
    rw [← identity_of_vertex there, ← identity_of_vertex there', same]
  exact Vertex.mk.injEq .. |>.mpr ⟨identity, labels k _ _ there there'⟩

/-- What is listed already is not listed again. -/
theorem enlistAll_of_subset {known is : List Identity} (all : ∀ i ∈ is, i ∈ known) :
    enlistAll known is = known := by
  have nothing : is.filter (· ∉ known) = [] := by
    apply List.filter_eq_nil_iff.mpr
    intro i member
    simpa using all i member
  rw [enlistAll_eq_append, nothing]
  simp

/-- What was shown last is shown again, and where nothing was, nothing changes. -/
theorem labelAfter_again {known : List Identity} (there : h.vertices[k]? = some w)
    (label : w.label = g.labelAfter done known k i) : h.labelAfter done known k i = w.label := by
  rw [labelAfter] at label
  rw [labelAfter, labelBefore, there]
  cases shown : if known.idxOf i = k then lastShown? done i else none with
  | none => rfl
  | some last =>
    rw [shown] at label
    exact label.symm

/-- Nothing is left to absorb. -/
theorem absorb_again (sound : Sound g) (fSound : Sound f) (ok : g.absorb f = .ok (h, places)) :
    h.absorb f = .ok (h, places) := by
  obtain ⟨m, h', absorbed, labelled, vertices, hSound, edges⟩ := absorb_labelled sound fSound
  obtain ⟨rfl, rfl⟩ := Prod.mk.inj (Except.ok.inj (ok.symm.trans absorbed))
  obtain ⟨m', h', again, labelled', vertices', hSound', edges'⟩ := absorb_labelled hSound fSound
  have listed : h.identities = m.1.identities := by rw [identities, vertices, identities]
  have same : m'.1.identities = h.identities := by
    rw [labelled'.vertices.identities]
    apply enlistAll_of_subset
    intro i member
    obtain ⟨v, there, rfl⟩ := List.mem_map.mp member
    rw [listed]
    exact labelled.mem there
  have places : m'.2 = m.2 := by rw [labelled'.places, labelled.places, same, listed]
  have sameVertices : m'.1.vertices = h.vertices := by
    apply vertices_ext same
    intro k v w there there'
    have identity : v.identity = w.identity := by
      apply Option.some.inj
      rw [← identity_of_vertex there, ← identity_of_vertex there', same]
    rw [labelled'.labels k v there, same, listed, identity]
    exact labelAfter_again there' (labelled.labels k w (vertices ▸ there'))
  have sameEdges : h'.edges = h.edges := by
    apply hSound'.ascending.eq_of_mem_iff hSound.ascending
    intro e
    rw [edges', edges, places, or_assoc, or_self]
  have unchanged : h' = h := Graph.mk.injEq .. |>.mpr ⟨vertices'.trans sameVertices, sameEdges⟩
  rw [again, unchanged, places]

/-- Taking over loses nothing and adds nothing else, and can be done again to no effect. -/
theorem absorb_merges (made : Reachable g) (fMade : Reachable f) :
    ∃ h places, g.absorb f = .ok (h, places) ∧ Absorbed g f h places ∧ h.absorb f = .ok (h, places) := by
  obtain ⟨m, h, absorbed, labelled, vertices, sound, edges⟩ := absorb_labelled made.sound fMade.sound
  refine ⟨h, m.2, absorbed, ?_, absorb_again made.sound fMade.sound absorbed⟩
  have listed : h.identities = m.1.identities := by rw [identities, vertices, identities]
  have labels (p : Nat) : h.label p = m.1.label p := by rw [Graph.label, vertex, vertices, Graph.label, vertex]
  constructor
  case length => simp [labelled.places, nodeCount]
  case identified => exact fun j first k second => labelled.identified first second
  case identities =>
    rw [listed, labelled.vertices.identities, enlistAll_eq_append]
    rfl
  case placed =>
    intro k p place
    have bound : k < f.vertices.length := by
      simpa [labelled.places] using (List.getElem?_eq_some_iff.mp place).1
    have there := List.getElem?_eq_getElem bound
    obtain ⟨_, w, at_p, same⟩ := labelled.placed there place
    rw [listed, identity_of_vertex at_p, same, identity_of_vertex there]
  case ascending => exact sound.ascending
  case mem_edges => exact edges
  case shown =>
    intro distinct k v p there place cause
    rw [labels]
    exact labelled.shown distinct there place cause
  case kept =>
    intro p bound others
    rw [labels]
    exact labelled.kept bound others

def relabelledPair : Graph where
  vertices := [⟨mark "x", "x1"⟩, ⟨mark "y", "y"⟩]
  edges := [⟨0, 1, "t"⟩]

/-- Shares two identities with the pair. One of them shows its first label again, the other a new one. -/
def overlapping : Graph where
  vertices := [⟨mark "z", "z1"⟩, ⟨mark "x", "x"⟩, ⟨mark "y", "y1"⟩]
  edges := [⟨0, 1, "t"⟩, ⟨1, 2, "t"⟩]

def joined : Graph where
  vertices := [⟨mark "x", "x1"⟩, ⟨mark "y", "y1"⟩, ⟨mark "z", "z1"⟩]
  edges := [⟨0, 1, "t"⟩, ⟨2, 0, "t"⟩]

theorem overlapping_absorb : Reachable relabelledPair ∧ Reachable overlapping ∧
    overlapping.identities.Nodup ∧ relabelledPair.absorb overlapping = .ok (joined, [2, 0, 1]) ∧
    Absorbed relabelledPair overlapping joined [2, 0, 1] ∧
    joined.absorb overlapping = .ok (joined, [2, 0, 1]) := by
  have made : Reachable relabelledPair :=
    .addEdge 0 1 "t" (.relabel 0 "x1" (.intern (mark "y") (.intern (mark "x") .empty)) rfl) rfl
  have vertices : Reachable ⟨overlapping.vertices, []⟩ :=
    .relabel 2 "y1" (.relabel 0 "z1" (.intern (mark "y") (.intern (mark "x")
      (.intern (mark "z") .empty))) rfl) rfl
  have brought : Reachable overlapping := .addEdge 1 2 "t" (.addEdge 0 1 "t" vertices rfl) rfl
  have ok : relabelledPair.absorb overlapping = .ok (joined, [2, 0, 1]) := by rfl
  obtain ⟨h, places, found, absorbed, again⟩ := absorb_merges made brought
  obtain ⟨rfl, rfl⟩ := Prod.mk.inj (Except.ok.inj (ok.symm.trans found))
  exact ⟨made, brought, by decide, ok, absorbed, again⟩

end Graph
end ProgramDependence
