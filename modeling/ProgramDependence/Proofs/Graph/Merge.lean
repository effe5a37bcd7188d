import ProgramDependence.Graph.Merge
import ProgramDependence.Proofs.Graph.Shows

/-! Taking over a graph always succeeds. Its vertices are numbered as if their identities had been
asked for one after the other, and its links are added to those that were shown before. -/
namespace ProgramDependence.Graph

variable {g f h : Graph} {m m' : Merged} {done : List Vertex} {places : List Nat} {id k : Nat}
  {label : String} {l : Link}

/-! ### Vertices -/

theorem relabel_identities (ok : g.relabel id label = .ok h) : h.identities = g.identities := by
  unfold relabel at ok
  split at ok
  next v there =>
    cases ok
    refine List.ext_getElem? fun k => ?_
    simp only [identities, List.getElem?_map, List.getElem?_set]
    split
    next same =>
      subst same
      have bound := (List.getElem?_eq_some_iff.mp there).1
      rw [if_pos bound, there]
      rfl
    next => rfl
  next => cases ok

/-- `m` is `g` with the vertices `done` absorbed. -/
structure VerticesAbsorbed (g : Graph) (done : List Vertex) (m : Merged) : Prop where
  edges : m.1.edges = g.edges
  identities : m.1.identities = enlistAll g.identities (done.map (·.identity))
  /-- Every vertex went to one with its identity. -/
  places : m.2.map (m.1.identities[·]?) = done.map fun v => some v.identity

theorem verticesAbsorbed_nil (g : Graph) : VerticesAbsorbed g [] (g, []) := ⟨rfl, rfl, rfl⟩

theorem absorbVertex_ok (m : Merged) (v : Vertex) :
    ∃ h, absorbVertex m v = .ok (h, m.2 ++ [(m.1.intern v.identity).2]) ∧
      h.edges = m.1.edges ∧ h.identities = enlist m.1.identities v.identity := by
  simp only [absorbVertex]
  split
  next => exact ⟨_, rfl, intern_edges m.1 v.identity, intern_identities m.1 v.identity⟩
  next =>
    obtain ⟨h, ok⟩ := relabel_of_lt _ v.label (intern_lt m.1 v.identity)
    refine ⟨h, by rw [ok]; rfl, ?_, ?_⟩
    · rw [(relabel_ok ok).1, intern_edges]
    · rw [relabel_identities ok, intern_identities]

theorem verticesAbsorbed_snoc (taken : VerticesAbsorbed g done m) (v : Vertex) :
    ∃ m', absorbVertex m v = .ok m' ∧ VerticesAbsorbed g (done ++ [v]) m' := by
  obtain ⟨h, ok, edges, identities⟩ := absorbVertex_ok m v
  have initial : m.1.identities <+: h.identities := by
    rw [identities]
    exact enlist_initial m.1.identities v.identity
  refine ⟨_, ok, edges.trans taken.edges, ?_, ?_⟩
  · rw [identities, taken.identities, List.map_append, enlistAll_append]
    rfl
  · -- places found before keep their identity, because numbers are only ever appended
    have old : m.2.map (h.identities[·]?) = m.2.map (m.1.identities[·]?) := by
      refine List.map_congr_left fun p member => ?_
      have listed : m.1.identities[p]? ∈ done.map fun v => some v.identity := by
        rw [← taken.places]
        exact List.mem_map_of_mem member
      obtain ⟨w, _, there⟩ := List.mem_map.mp listed
      rw [← there, getElem?_of_initial initial there.symm]
    have new : h.identities[(m.1.intern v.identity).2]? = some v.identity := by
      rw [identities, ← intern_identities]
      exact intern_get m.1 v.identity
    simp only [List.map_append, List.map_cons, List.map_nil, old, taken.places, new]

theorem absorbVertices (taken : VerticesAbsorbed g done m) (vertices : List Vertex) :
    ∃ m', vertices.foldlM absorbVertex m = .ok m' ∧ VerticesAbsorbed g (done ++ vertices) m' := by
  induction vertices generalizing m done with
  | nil => exact ⟨m, rfl, by simpa using taken⟩
  | cons v vertices ih =>
    obtain ⟨one, ok, first⟩ := verticesAbsorbed_snoc taken v
    obtain ⟨m', rest, all⟩ := ih first
    refine ⟨m', ?_, by simpa using all⟩
    simp only [List.foldlM_cons, ok]
    exact rest

theorem VerticesAbsorbed.place (taken : VerticesAbsorbed g f.vertices m) (bound : k < f.nodeCount) :
    ∃ p, m.2[k]? = some p ∧ m.1.identities[p]? = f.identities[k]? := by
  have length : m.2.length = f.nodeCount := by
    have lengths := congrArg List.length taken.places
    simpa [nodeCount] using lengths
  have inside : k < m.2.length := by omega
  refine ⟨m.2[k], List.getElem?_eq_getElem inside, ?_⟩
  have at_k := congrArg (·[k]?) taken.places
  simp only [List.getElem?_map, List.getElem?_eq_getElem inside, Option.map_some] at at_k
  have there : f.vertices[k]? = some f.vertices[k] := List.getElem?_eq_getElem bound
  have same : f.identities[k]? = some f.vertices[k].identity := by
    simp only [Graph.identities, List.getElem?_map, there, Option.map_some]
  rw [same]
  rw [there] at at_k
  exact Option.some.inj at_k

/-- A vertex that shows the label it was made with is interned and nothing else. -/
theorem absorbVertices_unchanged (m : Merged) (vertices : List Vertex)
    (unchanged : ∀ v ∈ vertices, v.label = v.identity.label)
    (ok : vertices.foldlM absorbVertex m = .ok m') :
    m'.1 = m.1.internAll (vertices.map (·.identity)) := by
  induction vertices generalizing m with
  | nil => cases ok; rfl
  | cons v vertices ih =>
    have same : v.identity.label = v.label := (unchanged v List.mem_cons_self).symm
    have step : absorbVertex m v =
        .ok ((m.1.intern v.identity).1, m.2 ++ [(m.1.intern v.identity).2]) := by
      simp only [absorbVertex, if_pos same]
    simp only [List.foldlM_cons, step] at ok
    exact ih _ (fun w member => unchanged w (List.mem_cons_of_mem v member)) ok

/-! ### Edges -/

/-- The link that an edge of `f` stands for. -/
def StandsFor (f : Graph) (e : Edge) (l : Link) : Prop :=
  f.identities[e.source]? = some l.source ∧ f.identities[e.target]? = some l.target ∧ e.tag = l.tag

theorem shows_iff_standsFor : Shows f l ↔ ∃ e ∈ f.edges, StandsFor f e l := by
  constructor
  · rintro ⟨s, t, hs, ht, member⟩
    exact ⟨_, member, hs, ht, rfl⟩
  · rintro ⟨e, member, hs, ht, sameTag⟩
    refine ⟨e.source, e.target, hs, ht, ?_⟩
    rw [← sameTag]
    exact member

/-- Room for the ends of an edge of `f` at the places where its vertices went. -/
def Fits (f : Graph) (places : List Nat) (h : Graph) : Prop :=
  ∀ k < f.nodeCount, ∃ p, places[k]? = some p ∧ p < h.nodeCount ∧
    h.identities[p]? = f.identities[k]?

theorem absorbEdge_ok (fits : Fits f places h) (sound : Sound h) (e : Edge)
    (source : e.source < f.nodeCount) (target : e.target < f.nodeCount) :
    ∃ h', absorbEdge places h e = .ok h' ∧ h'.vertices = h.vertices ∧ Sound h' ∧
      ∀ l, Shows h' l ↔ Shows h l ∨ StandsFor f e l := by
  obtain ⟨s, atSource, sBound, sSame⟩ := fits e.source source
  obtain ⟨t, atTarget, tBound, tSame⟩ := fits e.target target
  have done := addEdge_of_lt h e.tag sBound tBound
  rw [← length_identities] at source target
  have taken : absorbEdge places h e = h.addEdge s t e.tag := by
    simp only [absorbEdge, atSource, atTarget]
  refine ⟨_, taken.trans done, rfl, addEdge_sound done sound, fun l => ?_⟩
  rw [List.getElem?_eq_getElem source] at sSame
  rw [List.getElem?_eq_getElem target] at tSame
  rw [addEdge_shows sSame tSame done, StandsFor, List.getElem?_eq_getElem source,
    List.getElem?_eq_getElem target, or_comm]
  obtain ⟨_, _, _⟩ := l
  simp only [Link.mk.injEq, Option.some.injEq]
  exact or_congr_right ⟨fun h => ⟨h.1.symm, h.2.1.symm, h.2.2.symm⟩,
    fun h => ⟨h.1.symm, h.2.1.symm, h.2.2.symm⟩⟩

theorem absorbEdges_ok (fits : Fits f places h) (sound : Sound h) (edges : List Edge)
    (within : ∀ e ∈ edges, e.source < f.nodeCount ∧ e.target < f.nodeCount) :
    ∃ h', edges.foldlM (absorbEdge places) h = .ok h' ∧ h'.vertices = h.vertices ∧ Sound h' ∧
      ∀ l, Shows h' l ↔ Shows h l ∨ ∃ e ∈ edges, StandsFor f e l := by
  induction edges generalizing h with
  | nil => exact ⟨h, rfl, rfl, sound, by simp⟩
  | cons e edges ih =>
    obtain ⟨source, target⟩ := within e List.mem_cons_self
    obtain ⟨one, ok, vertices, oneSound, first⟩ := absorbEdge_ok fits sound e source target
    have fits' : Fits f places one := by
      intro k bound
      obtain ⟨p, place, inside, same⟩ := fits k bound
      refine ⟨p, place, ?_, ?_⟩
      · rw [nodeCount, vertices]
        exact inside
      · rw [identities, vertices]
        exact same
    obtain ⟨h', rest, vertices', sound', second⟩ :=
      ih fits' oneSound fun e' member => within e' (List.mem_cons_of_mem e member)
    refine ⟨h', ?_, vertices'.trans vertices, sound', fun l => ?_⟩
    · simp only [List.foldlM_cons, ok]
      exact rest
    · rw [second, first, or_assoc]
      simp only [List.mem_cons, exists_eq_or_imp]

/-! ### The whole graph -/

theorem VerticesAbsorbed.sound (taken : VerticesAbsorbed g done m) (sound : Sound g) : Sound m.1 := by
  have count : g.nodeCount ≤ m.1.nodeCount := by
    rw [← length_identities, ← length_identities, taken.identities]
    exact (enlistAll_initial g.identities _).length_le
  refine ⟨by rw [taken.edges]; exact sound.ascending, fun e member => ?_⟩
  obtain ⟨source, target⟩ := sound.within e (taken.edges ▸ member)
  omega

theorem VerticesAbsorbed.shows_iff (taken : VerticesAbsorbed g done m) (sound : Sound g) : Shows m.1 l ↔ Shows g l := by
  refine shows_of_initial sound ?_ taken.edges
  rw [taken.identities]
  exact enlistAll_initial g.identities _

theorem VerticesAbsorbed.fits (taken : VerticesAbsorbed g f.vertices m) : Fits f m.2 m.1 := by
  intro k bound
  obtain ⟨p, place, same⟩ := taken.place bound
  rw [← length_identities] at bound
  rw [List.getElem?_eq_getElem bound] at same
  have inside := (List.getElem?_eq_some_iff.mp same).1
  rw [length_identities] at inside
  exact ⟨p, place, inside, by rw [same, List.getElem?_eq_getElem bound]⟩

/-- Absorbing a sound graph does not fail. -/
theorem absorb_ok (sound : Sound g) (fSound : Sound f) :
    ∃ m : Merged, ∃ h, f.vertices.foldlM absorbVertex (g, []) = .ok m ∧
      VerticesAbsorbed g f.vertices m ∧ g.absorb f = .ok (h, m.2) ∧
      h.vertices = m.1.vertices ∧ Sound h ∧ ∀ l, Shows h l ↔ Shows g l ∨ Shows f l := by
  obtain ⟨m, ok, taken⟩ := absorbVertices (verticesAbsorbed_nil g) f.vertices
  rw [List.nil_append] at taken
  obtain ⟨h, edges, vertices, hSound, shown⟩ :=
    absorbEdges_ok taken.fits (taken.sound sound) f.edges fSound.within
  refine ⟨m, h, ok, taken, ?_, vertices, hSound, fun l => ?_⟩
  · simp only [absorb, ok]
    change (f.edges.foldlM (absorbEdge m.2) m.1 >>= fun g => Except.ok (g, m.2)) = _
    rw [edges]
    rfl
  · rw [shown, taken.shows_iff sound, ← shows_iff_standsFor]

/-- Taking over a plain graph is asking for its identities and adding its links. -/
theorem absorb_plain (plain : Plain g) (fPlain : Plain f) :
    ∃ h places, g.absorb f = .ok (h, places) ∧ Plain h ∧
      h.identities = enlistAll g.identities f.identities ∧
      ∀ l, Shows h l ↔ Shows g l ∨ Shows f l := by
  obtain ⟨m, h, ok, taken, absorbed, vertices, sound, shown⟩ := absorb_ok plain.sound fPlain.sound
  have interned : m.1 = g.internAll f.identities :=
    absorbVertices_unchanged (g, []) f.vertices fPlain.unchanged ok
  have mPlain : Plain m.1 := by
    rw [interned]
    exact internAll_plain f.identities plain
  have same : h.identities = m.1.identities := by rw [identities, vertices, identities]
  refine ⟨h, m.2, absorbed, ⟨sound, ?_, ?_⟩, ?_, shown⟩
  · rw [same]
    exact mPlain.distinct
  · rw [vertices]
    exact mPlain.unchanged
  · rw [same, interned, internAll_identities]

end ProgramDependence.Graph
