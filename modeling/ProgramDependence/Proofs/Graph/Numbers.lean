import ProgramDependence.Proofs.Graph.Reachable

/-! Which operations fail, and what number an identity has. Operations only ever append to the
identities, so an identity keeps the number it was first given, whatever labels are shown later. -/
namespace ProgramDependence.Graph

variable {g h : Graph} {a b : Identity} {e : GraphError} {id source target : Nat}
  {label tag : String} {ids : List Nat}

/-! ### Failure -/

theorem relabel_error_iff : g.relabel id label = .error e ↔ g.nodeCount ≤ id ∧ e = .missing id := by
  by_cases bound : id < g.nodeCount
  · obtain ⟨h, ok⟩ := relabel_of_lt g label bound
    simp [ok, bound]
  · have past : g.nodeCount ≤ id := Nat.le_of_not_lt bound
    have none : g.vertices[id]? = none := List.getElem?_eq_none past
    simp [relabel, none, past, eq_comm]

theorem addEdge_error_iff : g.addEdge source target tag = .error e ↔
    (g.nodeCount ≤ source ∧ e = .missing source) ∨
      (source < g.nodeCount ∧ g.nodeCount ≤ target ∧ e = .missing target) := by
  unfold addEdge
  by_cases first : g.nodeCount ≤ source
  · simp [first, Nat.not_lt.mpr first, eq_comm]
  · by_cases second : g.nodeCount ≤ target
    · simp [first, second, Nat.lt_of_not_le first, eq_comm]
    · simp [first, second]

/-- Absorbing is many changes, and none of them fails. -/
theorem absorb_of_reachable {f : Graph} (reachable : Reachable g) (fReachable : Reachable f) :
    ∃ h places, g.absorb f = .ok (h, places) := by
  obtain ⟨m, h, _, _, absorbed, _⟩ := absorb_ok reachable.sound fReachable.sound
  exact ⟨h, m.2, absorbed⟩

theorem absorb_initial {f : Graph} (sound : Sound g) (fSound : Sound f)
    (done : g.absorb f = .ok (h, ids)) : g.identities <+: h.identities := by
  obtain ⟨m, h', _, taken, absorbed, vertices, _⟩ := absorb_ok sound fSound
  obtain ⟨rfl, _⟩ := Prod.mk.inj (Except.ok.inj (done.symm.trans absorbed))
  have same : h.identities = m.1.identities := by rw [identities, vertices, identities]
  rw [same, taken.identities]
  exact enlistAll_initial g.identities _

/-! ### Numbers -/

/-- The number of an identity is the place where it was first listed, or the next free one. -/
theorem intern_eq_idxOf (g : Graph) (i : Identity) : (g.intern i).2 = g.identities.idxOf i := by
  unfold intern
  split
  next id found =>
    have place : g.identities.idxOf i = g.vertices.findIdx fun v => v.identity = i := by
      rw [List.idxOf, identities, List.findIdx_map]
      rfl
    rw [place]
    exact (List.findIdx?_eq_some_iff_findIdx_eq.mp found).2.symm
  next absent =>
    rw [List.idxOf_eq_length (idOf?_eq_none.mp absent), length_identities]

theorem idxOf_enlist (known : List Identity) (i : Identity) :
    (enlist known i).idxOf i = known.idxOf i := by
  unfold enlist
  split
  · rfl
  next absent =>
    rw [List.idxOf_append_of_notMem absent, List.idxOf_eq_length absent, List.idxOf_cons_self,
      Nat.add_zero]

/-- Once asked for, an identity keeps its number. -/
theorem intern_later (initial : (g.intern a).1.identities <+: h.identities) :
    (h.intern a).2 = (g.intern a).2 := by
  have listed : a ∈ (g.intern a).1.identities := List.mem_of_getElem? (intern_get g a)
  obtain ⟨rest, whole⟩ := initial
  calc (h.intern a).2
      = h.identities.idxOf a := intern_eq_idxOf h a
    _ = (g.intern a).1.identities.idxOf a := by rw [← whole, List.idxOf_append_of_mem listed]
    _ = g.identities.idxOf a := by rw [intern_identities, idxOf_enlist]
    _ = (g.intern a).2 := (intern_eq_idxOf g a).symm

/-- No other identity gets the number. -/
theorem eq_of_intern_later (initial : (g.intern a).1.identities <+: h.identities)
    (same : (g.intern a).2 = (h.intern b).2) : a = b := by
  have kept : h.identities <+: (h.intern b).1.identities := by
    rw [intern_identities]
    exact enlist_initial h.identities b
  have first := getElem?_of_initial kept (getElem?_of_initial initial (intern_get g a))
  rw [same, intern_get h b] at first
  exact (Option.some.inj first).symm

end ProgramDependence.Graph
