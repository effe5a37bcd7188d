import ProgramDependence.Proofs.Graph.Plain

/-! What a graph shows, said of identities instead of numbers, and how it grows: vertices come in the
order in which their identities are asked for, and edges are added between vertices that are there. -/
namespace ProgramDependence

/-- An edge by the identities of its ends. -/
structure Link where
  source : Identity
  target : Identity
  tag : String
  deriving DecidableEq, Repr

namespace Graph

variable {g h : Graph} {l : Link} {k : Nat} {i : Identity}

/-- There is an edge with this tag between the vertices of these identities. -/
def Shows (g : Graph) (l : Link) : Prop :=
  ∃ s t, g.identities[s]? = some l.source ∧ g.identities[t]? = some l.target ∧
    ⟨s, t, l.tag⟩ ∈ g.edges

theorem getElem?_of_initial (initial : g.identities <+: h.identities)
    (there : g.identities[k]? = some i) : h.identities[k]? = some i := by
  obtain ⟨rest, same⟩ := initial
  have bound : k < g.identities.length := (List.getElem?_eq_some_iff.mp there).1
  rw [← same, List.getElem?_append_left bound]
  exact there

theorem getElem?_of_initial_lt (initial : g.identities <+: h.identities) (bound : k < g.nodeCount) :
    h.identities[k]? = g.identities[k]? := by
  obtain ⟨rest, same⟩ := initial
  rw [← same, List.getElem?_append_left (by simpa using bound)]

/-- New vertices show nothing by themselves. -/
theorem shows_of_initial (sound : Sound g) (initial : g.identities <+: h.identities)
    (edges : h.edges = g.edges) : Shows h l ↔ Shows g l := by
  constructor
  · rintro ⟨s, t, hs, ht, member⟩
    rw [edges] at member
    obtain ⟨source, target⟩ := sound.within _ member
    rw [getElem?_of_initial_lt initial source] at hs
    rw [getElem?_of_initial_lt initial target] at ht
    exact ⟨s, t, hs, ht, member⟩
  · rintro ⟨s, t, hs, ht, member⟩
    exact ⟨s, t, getElem?_of_initial initial hs, getElem?_of_initial initial ht, edges ▸ member⟩

theorem addEdge_shows {a b : Identity} (hs : g.identities[s]? = some a) (ht : g.identities[t]? = some b)
    (done : g.addEdge s t tag = .ok h) : Shows h l ↔ l = ⟨a, b, tag⟩ ∨ Shows g l := by
  obtain ⟨_, _, rfl⟩ := addEdge_ok done
  constructor
  · rintro ⟨s', t', hs', ht', member⟩
    rcases (Ascending.mem_insert _ _ _).mp member with new | old
    · obtain ⟨rfl, rfl, sameTag⟩ := Edge.mk.inj new
      have sameSource : l.source = a := Option.some.inj (hs'.symm.trans hs)
      have sameTarget : l.target = b := Option.some.inj (ht'.symm.trans ht)
      left
      obtain ⟨_, _, _⟩ := l
      simp_all
    · exact .inr ⟨s', t', hs', ht', old⟩
  · rintro (rfl | ⟨s', t', hs', ht', member⟩)
    · exact ⟨s, t, hs, ht, (Ascending.mem_insert _ _ _).mpr (.inl rfl)⟩
    · exact ⟨s', t', hs', ht', (Ascending.mem_insert _ _ _).mpr (.inr member)⟩

/-- The identities and the links shown determine the graph. -/
theorem eq_of_shows (plain : Plain g) (plain' : Plain h) (same : g.identities = h.identities)
    (shown : ∀ l, Shows g l ↔ Shows h l) : g = h := by
  have carry {g h : Graph} (plain : Plain g) (plain' : Plain h)
      (same : g.identities = h.identities) (shown : ∀ l, Shows g l → Shows h l) {e : Edge}
      (member : e ∈ g.edges) : e ∈ h.edges := by
    obtain ⟨source, target⟩ := plain.sound.within e member
    rw [← length_identities] at source target
    obtain ⟨s, t, hs, ht, there⟩ := shown ⟨g.identities[e.source], g.identities[e.target], e.tag⟩
      ⟨e.source, e.target, List.getElem?_eq_getElem source, List.getElem?_eq_getElem target, member⟩
    rw [← same] at hs ht
    have sameSource : e.source = s := (List.getElem?_inj source plain.distinct).mp
      ((List.getElem?_eq_getElem source).trans hs.symm)
    have sameTarget : e.target = t := (List.getElem?_inj target plain.distinct).mp
      ((List.getElem?_eq_getElem target).trans ht.symm)
    subst sameSource sameTarget
    exact there
  have vertices : g.vertices = h.vertices := by
    rw [plain.vertices_eq, plain'.vertices_eq, same]
  have edges : g.edges = h.edges :=
    plain.sound.ascending.eq_of_mem_iff plain'.sound.ascending fun e =>
      ⟨carry plain plain' same fun l => (shown l).mp,
        carry plain' plain same.symm fun l => (shown l).mpr⟩
  obtain ⟨_, _⟩ := g
  obtain ⟨_, _⟩ := h
  simp_all

theorem not_shows_empty (l : Link) : ¬empty.Shows l := by
  rintro ⟨s, t, hs, _⟩
  simp [identities, empty] at hs

/-- The edges by number, from what is shown. -/
theorem Plain.mem_edges_iff {e : Edge} (plain : Plain g) : e ∈ g.edges ↔
    ∃ l, g.Shows l ∧ g.idOf? l.source = some e.source ∧ g.idOf? l.target = some e.target ∧
      l.tag = e.tag := by
  simp only [plain.idOf?_iff]
  constructor
  · intro member
    obtain ⟨source, target⟩ := plain.sound.within e member
    rw [← length_identities] at source target
    have hs := List.getElem?_eq_getElem source
    have ht := List.getElem?_eq_getElem target
    exact ⟨⟨_, _, e.tag⟩, ⟨e.source, e.target, hs, ht, member⟩, hs, ht, rfl⟩
  · rintro ⟨l, ⟨s, t, hs, ht, member⟩, source, target, tag⟩
    have bound : s < g.identities.length := (List.getElem?_eq_some_iff.mp hs).1
    have bound' : t < g.identities.length := (List.getElem?_eq_some_iff.mp ht).1
    obtain rfl := (List.getElem?_inj bound plain.distinct).mp (hs.trans source.symm)
    obtain rfl := (List.getElem?_inj bound' plain.distinct).mp (ht.trans target.symm)
    rw [tag] at member
    exact member

/-- The edges with tags of one sort, from the links with such tags. -/
theorem Plain.mem_edges_tagged {links : List Link} {Drawn : Link → Prop} (plain : Plain g)
    (shown : ∀ l, g.Shows l ↔ l ∈ links) (wanted : String → Prop)
    (drawn : ∀ l, Drawn l ↔ l ∈ links ∧ wanted l.tag) (e : Edge) :
    (e ∈ g.edges ∧ wanted e.tag) ↔ ∃ l, Drawn l ∧ g.idOf? l.source = some e.source ∧
      g.idOf? l.target = some e.target ∧ l.tag = e.tag := by
  simp only [plain.mem_edges_iff, shown, drawn]
  constructor
  · rintro ⟨⟨l, member, source, target, tag⟩, sort⟩
    exact ⟨l, ⟨member, tag ▸ sort⟩, source, target, tag⟩
  · rintro ⟨l, ⟨member, sort⟩, source, target, tag⟩
    exact ⟨⟨l, member, source, target, tag⟩, tag ▸ sort⟩

theorem mem_filter_tag {edges picked : List Edge} (wanted : String → Prop) [DecidablePred wanted]
    (same : edges.filter (fun e => wanted e.tag) = picked) (e : Edge) :
    e ∈ picked ↔ e ∈ edges ∧ wanted e.tag := by
  rw [← same, List.mem_filter, decide_eq_true_iff]

/-! ### Links -/

/-- What came of adding links to `g`: `mentions` were asked for, and `links` are new. -/
structure Extends (g : Graph) (mentions : List Identity) (links : List Link) (h : Graph) : Prop where
  plain : Plain h
  identities : h.identities = enlistAll g.identities mentions
  shows_iff : ∀ l, Shows h l ↔ Shows g l ∨ l ∈ links

theorem Extends.trans {k : Graph} (first : Extends g is ls h) (second : Extends h js ks k) :
    Extends g (is ++ js) (ls ++ ks) k where
  plain := second.plain
  identities := by rw [second.identities, first.identities, enlistAll_append]
  shows_iff l := by rw [second.shows_iff, first.shows_iff, List.mem_append, or_assoc]

theorem Extends.refl (plain : Plain g) : Extends g [] [] g := ⟨plain, rfl, by simp⟩

theorem internAll_extends (is : List Identity) (plain : Plain g) :
    Extends g is [] (g.internAll is) where
  plain := internAll_plain is plain
  identities := internAll_identities g is
  shows_iff l := by
    simp only [List.not_mem_nil, or_false]
    refine shows_of_initial plain.sound ?_ (internAll_edges g is)
    rw [internAll_identities]
    exact enlistAll_initial g.identities is

theorem intern_extends (plain : Plain g) (i : Identity) : Extends g [i] [] (g.intern i).1 :=
  internAll_extends [i] plain

/-- A step from `g`, which need not be plain: it asks for `mentions` and adds `links`. -/
structure Grows (g : Graph) (mentions : List Identity) (links : List Link) (h : Graph) : Prop where
  identities : h.identities = enlistAll g.identities mentions
  extension : Plain g → Extends g mentions links h

theorem Grows.refl (g : Graph) : Grows g [] [] g := ⟨rfl, .refl⟩

theorem Grows.trans {k : Graph} (first : Grows g is ls h) (second : Grows h js ks k) :
    Grows g (is ++ js) (ls ++ ks) k where
  identities := by rw [second.identities, first.identities, enlistAll_append]
  extension plain :=
    (first.extension plain).trans (second.extension (first.extension plain).plain)

/-- Numbers stay what they are. -/
theorem Grows.get (grows : Grows g is ls h) (there : g.identities[k]? = some i) :
    h.identities[k]? = some i := by
  apply getElem?_of_initial _ there
  rw [grows.identities]
  exact enlistAll_initial g.identities is

theorem intern_grows (g : Graph) (i : Identity) : Grows g [i] [] (g.intern i).1 :=
  ⟨intern_identities g i, fun plain => intern_extends plain i⟩

/-- An edge between two numbers that were given out is never refused. -/
theorem addEdge_grows {a b : Identity} (hs : g.identities[s]? = some a)
    (ht : g.identities[t]? = some b) (tag : String) :
    ∃ h, g.addEdge s t tag = .ok h ∧ Grows g [] [⟨a, b, tag⟩] h := by
  have source : s < g.nodeCount := by simpa using (List.getElem?_eq_some_iff.mp hs).1
  have target : t < g.nodeCount := by simpa using (List.getElem?_eq_some_iff.mp ht).1
  have done := addEdge_of_lt g tag source target
  refine ⟨_, done, rfl, fun plain => ⟨addEdge_plain done plain, rfl, fun l => ?_⟩⟩
  rw [addEdge_shows hs ht done, List.mem_singleton, or_comm]

end Graph
end ProgramDependence
