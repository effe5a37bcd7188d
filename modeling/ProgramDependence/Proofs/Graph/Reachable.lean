import ProgramDependence.Graph.Reader
import ProgramDependence.Proofs.Graph.Merge
import ProgramDependence.Proofs.Graph.Visit

/-! The graphs that the operations of the store can produce, in any number and order. All of them
have ascending edges whose ends are there. -/
namespace ProgramDependence.Graph

/-- Made by some sequence of operations. A failed operation leaves its graph as it was. -/
inductive Reachable : Graph → Prop where
  | empty : Reachable .empty
  | intern (i : Identity) : Reachable g → Reachable (g.intern i).1
  | relabel (k : Nat) (shown : String) : Reachable g → g.relabel k shown = .ok h → Reachable h
  | addEdge (source target : Nat) (tag : String) : Reachable g →
      g.addEdge source target tag = .ok h → Reachable h
  | absorb (places : List Nat) : Reachable g → Reachable f → g.absorb f = .ok (h, places) →
      Reachable h
  | slice (start : String) : Reachable g → h ∈ g.slices start → Reachable h
  | read (lines : List (Option (List Char))) : ofLines lines = .ok h → Reachable h

variable {g f h : Graph} {places : List Nat} {k : Nat} {start : String}

theorem absorb_sound (ok : g.absorb f = .ok (h, places)) (sound : Sound g) (fSound : Sound f) :
    Sound h := by
  obtain ⟨m, k, _, _, absorbed, _, kSound, _⟩ := absorb_ok sound fSound
  rw [absorbed] at ok
  cases ok
  exact kSound

/-! ### Slices -/

theorem leadingTo_ascending (g : Graph) (k : Nat) : (g.leadingTo k).Pairwise (· < ·) :=
  keptFrom_ascending g.edges k

theorem leadingTo_lt (sound : Sound g) (bound : k < g.nodeCount) (member : i ∈ g.leadingTo k) :
    i < g.nodeCount := by
  rcases (mem_keptFrom.mp member).cases_tail with rfl | ⟨_, _, source⟩
  · exact bound
  · obtain ⟨_, edge⟩ := mem_parentsIn.mp source
    exact (sound.within _ edge).1

theorem mem_labelled {label : String} :
    k ∈ g.labelled label ↔ ∃ v, g.vertices[k]? = some v ∧ v.label = label := by
  simp only [labelled, List.mem_filter, List.mem_range, Option.any_eq_true, decide_eq_true_eq,
    and_iff_right_iff_imp]
  rintro ⟨v, there, _⟩
  exact (List.getElem?_eq_some_iff.mp there).1

theorem labelled_lt {label : String} (member : k ∈ g.labelled label) : k < g.nodeCount := by
  obtain ⟨v, there, _⟩ := mem_labelled.mp member
  exact (List.getElem?_eq_some_iff.mp there).1

theorem idxOf?_lt_length [BEq α] [LawfulBEq α] {kept : List α} (found : kept.idxOf? a = some i) :
    i < kept.length := by
  obtain ⟨bound, _⟩ := List.findIdx?_eq_some_iff_getElem.mp found
  exact bound

/-- Renumbering by position in an ascending list keeps the order. -/
theorem idxOf?_lt_iff {kept : List Nat} (ascending : kept.Pairwise (· < ·))
    (first : kept.idxOf? a = some i) (second : kept.idxOf? b = some j) : i < j ↔ a < b := by
  obtain ⟨iBound, iSame, _⟩ := List.findIdx?_eq_some_iff_getElem.mp first
  obtain ⟨jBound, jSame, _⟩ := List.findIdx?_eq_some_iff_getElem.mp second
  have order := List.pairwise_iff_getElem.mp ascending
  rw [← beq_iff_eq.mp iSame, ← beq_iff_eq.mp jSame]
  constructor
  · exact order i j iBound jBound
  · intro before
    by_contra notBefore
    rcases Nat.lt_or_eq_of_le (Nat.le_of_not_lt notBefore) with after | rfl
    · exact Nat.lt_asymm before (order j i jBound iBound after)
    · exact Nat.lt_irrefl _ before

theorem idxOf?_eq_iff {kept : List Nat} (ascending : kept.Pairwise (· < ·))
    (first : kept.idxOf? a = some i) (second : kept.idxOf? b = some j) : i = j ↔ a = b := by
  have forth := idxOf?_lt_iff ascending first second
  have back := idxOf?_lt_iff ascending second first
  omega

theorem keepEdge_eq_some {kept : List Nat} (kept? : keepEdge kept e = some e') :
    kept.idxOf? e.source = some e'.source ∧ kept.idxOf? e.target = some e'.target ∧
      e'.tag = e.tag := by
  simp only [keepEdge, Option.bind_eq_bind, Option.bind_eq_some_iff, Option.some.injEq] at kept?
  obtain ⟨s, source, t, target, rfl⟩ := kept?
  exact ⟨source, target, rfl⟩

theorem keepEdge_lt {kept : List Nat} (ascending : kept.Pairwise (· < ·)) {a b a' b' : Edge}
    (first : keepEdge kept a = some a') (second : keepEdge kept b = some b') (before : a < b) :
    a' < b' := by
  obtain ⟨source, target, tag⟩ := keepEdge_eq_some first
  obtain ⟨source', target', tag'⟩ := keepEdge_eq_some second
  rw [Edge.lt_iff] at before ⊢
  rw [tag, tag', idxOf?_lt_iff ascending source source', idxOf?_eq_iff ascending source source',
    idxOf?_lt_iff ascending target target']
  exact before

theorem restrict_nodeCount (kept : List Nat) (within : ∀ k ∈ kept, k < g.nodeCount) :
    (g.restrict kept).nodeCount = kept.length := by
  simp only [nodeCount, restrict]
  induction kept with
  | nil => rfl
  | cons k kept ih =>
    have bound : k < g.vertices.length := within k List.mem_cons_self
    rw [List.filterMap_cons, List.getElem?_eq_getElem bound]
    simp only [Option.map_some, List.length_cons]
    rw [ih fun k' member => within k' (List.mem_cons_of_mem k member)]

theorem restrict_sound (sound : Sound g) (kept : List Nat) (ascending : kept.Pairwise (· < ·))
    (within : ∀ k ∈ kept, k < g.nodeCount) : Sound (g.restrict kept) := by
  refine ⟨?_, fun e member => ?_⟩
  · refine List.pairwise_filterMap.mpr (sound.ascending.imp fun before a' first b' second => ?_)
    exact keepEdge_lt ascending first second before
  · obtain ⟨e', _, kept?⟩ := List.mem_filterMap.mp member
    obtain ⟨source, target, _⟩ := keepEdge_eq_some kept?
    rw [restrict_nodeCount kept within]
    exact ⟨idxOf?_lt_length source, idxOf?_lt_length target⟩

theorem slices_sound (sound : Sound g) (member : h ∈ g.slices start) : Sound h := by
  obtain ⟨k, start, rfl⟩ := List.mem_map.mp member
  exact restrict_sound sound _ (leadingTo_ascending g k) fun _ => leadingTo_lt sound (labelled_lt start)

/-! ### Reading -/

theorem pushRecords_sound (sound : Sound g) (ok : pushRecords g records = .ok h) : Sound h := by
  induction records generalizing g with
  | nil => cases ok; exact sound
  | cons record records ih =>
    obtain ⟨line, v⟩ := record
    simp only [pushRecords] at ok
    split at ok
    · exact ih (push_sound v.identity sound) ok
    · cases ok

theorem addRecords_sound (sound : Sound g) (ok : addRecords g records = .ok h) : Sound h := by
  induction records generalizing g with
  | nil => cases ok; exact sound
  | cons record records ih =>
    obtain ⟨line, e⟩ := record
    simp only [addRecords] at ok
    split at ok
    · cases ok
    next added => exact ih (addEdge_sound added sound) ok

theorem ofLines_sound (ok : ofLines lines = .ok h) : Sound h := by
  unfold ofLines at ok
  split at ok
  · cases ok
  next records _ =>
    unfold ofRecords at ok
    split at ok
    · cases ok
    next g pushed => exact addRecords_sound (pushRecords_sound empty_sound pushed) ok

theorem Reachable.sound (reachable : Reachable g) : Sound g := by
  induction reachable with
  | empty => exact empty_sound
  | intern i _ sound => exact intern_sound i sound
  | relabel _ _ _ ok sound => exact relabel_sound ok sound
  | addEdge _ _ _ _ ok sound => exact addEdge_sound ok sound
  | absorb _ _ _ ok sound fSound => exact absorb_sound ok sound fSound
  | slice _ _ member sound => exact slices_sound sound member
  | read _ ok => exact ofLines_sound ok

end ProgramDependence.Graph
