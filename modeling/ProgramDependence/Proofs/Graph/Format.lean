import Mathlib.Data.List.Perm.Basic
import ProgramDependence.Proofs.Graph.Restriction
import ProgramDependence.Proofs.Graph.RoundTrip
import ProgramDependence.Proofs.Text.Encoding

/-! The text form of a graph, and that reading accepts this form and nothing else. A text is read if its lines
are blank or spell records, the vertices are numbered without a gap or a repetition, and edges stay among them.
In which order the records stand, and how often an edge is repeated, makes no difference to the graph. -/
namespace ProgramDependence

theorem Text.eq_append_of_cutAt {α : Type} [DecidableEq α] {sep : α} {text before after : List α}
    (cut : cutAt sep text = some (before, after)) : text = before ++ sep :: after := by
  induction text generalizing before with
  | nil => cases cut
  | cons c text ih =>
    rw [cutAt] at cut
    split at cut
    next same =>
      cases cut
      rw [same]
      rfl
    next =>
      obtain ⟨parts, rest, whole⟩ := Option.map_eq_some_iff.mp cut
      cases whole
      rw [ih rest]
      rfl

namespace Graph

/-- What a line that is not blank holds. -/
inductive Entry where
  | vertex (record : VertexRecord)
  | edge (e : Edge)

/-- A line is the kind of its record, a tab and the record. -/
inductive Spells : List Char → Entry → Prop where
  | vertex {payload : List Char} {record : VertexRecord} : VertexRecord.ofText? payload = some record →
      Spells (vertexKind ++ '\t' :: payload) (.vertex record)
  | edge {payload : List Char} {e : Edge} : Edge.ofText? payload = some e →
      Spells (edgeKind ++ '\t' :: payload) (.edge e)

def Entry.vertex? : Entry → Option VertexRecord
  | .vertex record => some record
  | .edge _ => none

def Entry.edge? : Entry → Option Edge
  | .vertex _ => none
  | .edge e => some e

def vertexRecords (entries : List Entry) : List VertexRecord := entries.filterMap Entry.vertex?

def edgeRecords (entries : List Entry) : List Edge := entries.filterMap Entry.edge?

def inked (lines : List (List Char)) : List (List Char) :=
  lines.filter fun line => !Text.isBlankLine line

/-- The ids are the numbers below their count, each of them once, and the ends of edges are among them. -/
structure Fitting (vertices : List VertexRecord) (edges : List Edge) : Prop where
  dense : (vertices.map (·.id)).Perm (List.range vertices.length)
  within : ∀ e ∈ edges, e.source < vertices.length ∧ e.target < vertices.length

/-- The lines of a graph, blank ones apart, and what they hold. -/
structure WellFormed (lines : List (List Char)) (entries : List Entry) : Prop where
  spelled : List.Forall₂ Spells (inked lines) entries
  fitting : Fitting (vertexRecords entries) (edgeRecords entries)

/-- The graph shows what the entries hold and nothing else. -/
structure Describes (entries : List Entry) (g : Graph) : Prop where
  nodeCount : g.nodeCount = (vertexRecords entries).length
  shown : ∀ record ∈ vertexRecords entries, g.view record.id = .ok record.identity
  ascending : g.edges.Pairwise (· < ·)
  mem_edges : ∀ e, e ∈ g.edges ↔ e ∈ edgeRecords entries

/-- Lines in another order, with more blank lines and with edge lines repeated. -/
inductive Rearranged : List (List Char) → List (List Char) → Prop where
  | permute {lines lines' : List (List Char)} : lines.Perm lines' → Rearranged lines lines'
  | blank {lines : List (List Char)} {line : List Char} : Text.isBlankLine line = true →
      Rearranged lines (line :: lines)
  | again {lines : List (List Char)} {payload : List Char} : edgeKind ++ '\t' :: payload ∈ lines →
      Rearranged lines ((edgeKind ++ '\t' :: payload) :: lines)
  | trans {lines lines' lines'' : List (List Char)} : Rearranged lines lines' →
      Rearranged lines' lines'' → Rearranged lines lines''

variable {g h : Graph} {line : List Char} {lines lines' : List (List Char)} {entry : Entry}
  {entries : List Entry} {records records' : Records} {number : Nat}

/-! ### One line -/

def Records.add (records : Records) (number : Nat) : Entry → Records
  | .vertex record => { records with vertices := records.vertices ++ [(number, record)] }
  | .edge e => { records with edges := records.edges ++ [(number, e)] }

theorem Spells.not_blank (spells : Spells line entry) : Text.isBlankLine line = false := by
  cases spells <;> rfl

theorem readLine_of_spells (spells : Spells line entry) (records : Records) (number : Nat) :
    readLine records number line = .ok (records.add number entry) := by
  have notBlank := spells.not_blank
  cases spells with
  | @vertex payload record decoded =>
    have cut : Text.cutAt '\t' (vertexKind ++ '\t' :: payload) = some (vertexKind, payload) :=
      Text.cutAt_append _ _ (by decide)
    simp only [readLine, notBlank, cut, decoded, ↓reduceIte, Bool.false_eq_true, Records.add]
  | @edge payload e decoded =>
    have cut : Text.cutAt '\t' (edgeKind ++ '\t' :: payload) = some (edgeKind, payload) :=
      Text.cutAt_append _ _ (by decide)
    simp only [readLine, notBlank, cut, decoded, vertexKind_ne_edgeKind, ↓reduceIte, Bool.false_eq_true,
      Records.add]

theorem exists_spells_of_readLine (ok : readLine records number line = .ok records')
    (notBlank : Text.isBlankLine line = false) : ∃ entry, Spells line entry := by
  simp only [readLine, notBlank, Bool.false_eq_true, ↓reduceIte] at ok
  split at ok
  next => cases ok
  next kind payload cut =>
    rw [Text.eq_append_of_cutAt cut]
    split at ok
    next vertex =>
      split at ok
      next => cases ok
      next record decoded =>
        subst vertex
        exact ⟨_, .vertex decoded⟩
    next =>
      split at ok
      next edge =>
        split at ok
        next => cases ok
        next e decoded =>
          subst edge
          exact ⟨_, .edge decoded⟩
      next => cases ok

theorem readLine_blank (blank : Text.isBlankLine line = true) (records : Records) (number : Nat) :
    readLine records number line = .ok records := by
  rw [readLine, if_pos blank]

/-- A line of an edge spells an edge. -/
theorem Spells.edge_of_kind {payload : List Char} (spells : Spells (edgeKind ++ '\t' :: payload) entry) :
    ∃ e, entry = .edge e := by
  generalize whole : edgeKind ++ '\t' :: payload = line at spells
  cases spells with
  | vertex _ => cases whole
  | edge _ => exact ⟨_, rfl⟩

/-! ### All lines -/

theorem vertexRecords_cons (entry : Entry) (entries : List Entry) :
    vertexRecords (entry :: entries) = vertexRecords [entry] ++ vertexRecords entries :=
  List.filterMap_append (l := [entry])

theorem edgeRecords_cons (entry : Entry) (entries : List Entry) :
    edgeRecords (entry :: entries) = edgeRecords [entry] ++ edgeRecords entries :=
  List.filterMap_append (l := [entry])

/-- The records that were read, without the numbers of their lines. -/
structure Holds (records : Records) (vertices : List VertexRecord) (edges : List Edge) : Prop where
  vertices : records.vertices.map (·.2) = vertices
  edges : records.edges.map (·.2) = edges

theorem holds_nothing : Holds {} [] [] := ⟨rfl, rfl⟩

theorem Holds.add {vertices : List VertexRecord} {edges : List Edge} (holds : Holds records vertices edges)
    (number : Nat) (entry : Entry) :
    Holds (records.add number entry) (vertices ++ vertexRecords [entry]) (edges ++ edgeRecords [entry]) := by
  obtain ⟨rfl, rfl⟩ := holds
  cases entry with
  | vertex record => constructor <;> simp [Records.add, vertexRecords, edgeRecords, Entry.vertex?, Entry.edge?]
  | edge e => constructor <;> simp [Records.add, vertexRecords, edgeRecords, Entry.vertex?, Entry.edge?]

theorem inked_of_blank (blank : Text.isBlankLine line = true) : inked (line :: lines) = inked lines := by
  simp [inked, blank]

theorem inked_of_not_blank (notBlank : Text.isBlankLine line = false) :
    inked (line :: lines) = line :: inked lines := by
  simp [inked, notBlank]

theorem readLines_of_spelled {vertices : List VertexRecord} {edges : List Edge}
    (spelled : List.Forall₂ Spells (inked lines) entries) (holds : Holds records vertices edges)
    (number : Nat) : ∃ records', readLines records number (lines.map some) = .ok records' ∧
      Holds records' (vertices ++ vertexRecords entries) (edges ++ edgeRecords entries) := by
  induction lines generalizing records vertices edges entries number with
  | nil =>
    cases spelled
    exact ⟨records, rfl, by simpa [vertexRecords, edgeRecords] using holds⟩
  | cons line lines ih =>
    rw [List.map_cons, readLines]
    by_cases blank : Text.isBlankLine line = true
    · rw [inked_of_blank blank] at spelled
      rw [readLine_blank blank]
      exact ih spelled holds (number + 1)
    · rw [inked_of_not_blank (Bool.eq_false_of_not_eq_true blank)] at spelled
      cases spelled with
      | @cons _ entry _ entries here rest =>
        obtain ⟨records', ok, all⟩ := ih rest (holds.add number entry) (number + 1)
        rw [readLine_of_spells here]
        refine ⟨records', ok, ?_⟩
        rw [vertexRecords_cons, edgeRecords_cons, ← List.append_assoc, ← List.append_assoc]
        exact all

theorem spelled_of_readLines (ok : readLines records number (lines.map some) = .ok records') :
    ∃ entries, List.Forall₂ Spells (inked lines) entries := by
  induction lines generalizing records number with
  | nil => exact ⟨[], .nil⟩
  | cons line lines ih =>
    rw [List.map_cons, readLines] at ok
    split at ok
    next => cases ok
    next one read =>
      obtain ⟨entries, rest⟩ := ih ok
      by_cases blank : Text.isBlankLine line = true
      · rw [inked_of_blank blank]
        exact ⟨entries, rest⟩
      · have notBlank := Bool.eq_false_of_not_eq_true blank
        obtain ⟨entry, here⟩ := exists_spells_of_readLine read notBlank
        rw [inked_of_not_blank notBlank]
        exact ⟨entry :: entries, .cons here rest⟩

/-! ### Vertices -/

/-- A vertex as it is made when a record is read. -/
def made (record : VertexRecord) : Vertex := ⟨record.identity, record.identity.label⟩

theorem pushRecords_ok_iff (g h : Graph) (records : List (Nat × VertexRecord)) :
    pushRecords g records = .ok h ↔ records.map (·.2.id) = List.range' g.nodeCount records.length ∧
      h = { g with vertices := g.vertices ++ records.map (made ·.2) } := by
  induction records generalizing g with
  | nil => simp [pushRecords, eq_comm]
  | cons record records ih =>
    obtain ⟨line, v⟩ := record
    rw [pushRecords]
    by_cases next : v.id = g.nodeCount
    · rw [if_pos next, ih, push_nodeCount]
      simp [next, List.range'_succ, push, made]
    · rw [if_neg next]
      simp [next, List.range'_succ]

/-- Sorted by id, records have the numbers below their count for ids if these are all there in any order. -/
theorem sorted_iff_dense (records : List (Nat × VertexRecord)) :
    (records.mergeSort byId).map (·.2.id) = List.range records.length ↔
      (records.map (·.2.id)).Perm (List.range records.length) := by
  have perm := (List.mergeSort_perm records byId).map (·.2.id)
  constructor
  · intro sorted
    rw [← sorted]
    exact perm.symm
  · intro dense
    have ordered : (records.mergeSort byId).Pairwise fun a b => byId a b = true := by
      apply List.pairwise_mergeSort
      · intro a b c first second
        simp only [byId, decide_eq_true_eq] at first second ⊢
        exact Nat.le_trans first second
      · intro a b
        simpa [byId] using Nat.le_total a.2.id b.2.id
    have ascending : ((records.mergeSort byId).map (·.2.id)).Pairwise (· ≤ ·) :=
      List.pairwise_map.mpr (ordered.imp fun before => of_decide_eq_true before)
    exact (perm.trans dense).eq_of_pairwise' ascending List.pairwise_le_range

/-! ### Edges -/

theorem addRecords_of_within (sound : Sound g) (found : List (Nat × Edge))
    (within : ∀ p ∈ found, p.2.source < g.nodeCount ∧ p.2.target < g.nodeCount) :
    ∃ h, addRecords g found = .ok h ∧ h.vertices = g.vertices ∧ Sound h ∧
      ∀ e, e ∈ h.edges ↔ e ∈ g.edges ∨ e ∈ found.map (·.2) := by
  induction found generalizing g with
  | nil => exact ⟨g, rfl, rfl, sound, by simp⟩
  | cons p found ih =>
    obtain ⟨line, e⟩ := p
    obtain ⟨source, target⟩ := within (line, e) List.mem_cons_self
    have added := addEdge_of_lt g e.tag source target
    obtain ⟨h, rest, vertices, hSound, edges⟩ := ih (addEdge_sound added sound)
      fun p member => within p (List.mem_cons_of_mem _ member)
    refine ⟨h, ?_, vertices, hSound, fun e' => ?_⟩
    · simp only [addRecords, added, rest]
    · rw [edges, Ascending.mem_insert, List.map_cons, List.mem_cons]
      exact or_assoc.trans (or_left_comm)

theorem within_of_addRecords {found : List (Nat × Edge)} (ok : addRecords g found = .ok h) :
    ∀ p ∈ found, p.2.source < g.nodeCount ∧ p.2.target < g.nodeCount := by
  induction found generalizing g with
  | nil => simp
  | cons p found ih =>
    obtain ⟨line, e⟩ := p
    rw [addRecords] at ok
    split at ok
    next => cases ok
    next one added =>
      obtain ⟨source, target, rfl⟩ := addEdge_ok added
      intro p member
      rcases List.mem_cons.mp member with rfl | later
      · exact ⟨source, target⟩
      · exact ih ok p later

/-! ### The graph -/

/-- The graph made of records: its vertices in the order of their ids, and its edges as a set. -/
structure Built (vertices : List VertexRecord) (edges : List Edge) (g : Graph) : Prop where
  vertices : ∃ sorted : List VertexRecord, sorted.Perm vertices ∧
    sorted.map (·.id) = List.range sorted.length ∧ g.vertices = sorted.map made
  ascending : g.edges.Pairwise (· < ·)
  mem_edges : ∀ e, e ∈ g.edges ↔ e ∈ edges

theorem ofRecords_of_fitting {vertices : List VertexRecord} {edges : List Edge}
    (holds : Holds records vertices edges) (fitting : Fitting vertices edges) :
    ∃ g, ofRecords records = .ok g ∧ Built vertices edges g := by
  obtain ⟨rfl, rfl⟩ := holds
  have ids : (records.vertices.mergeSort byId).map (·.2.id) = List.range records.vertices.length := by
    apply (sorted_iff_dense records.vertices).mpr
    simpa [Function.comp_def] using fitting.dense
  obtain ⟨start, pushed, made, count, none⟩ : ∃ start,
      pushRecords .empty (records.vertices.mergeSort byId) = .ok start ∧
      start.vertices = (records.vertices.mergeSort byId).map (made ·.2) ∧
      start.nodeCount = records.vertices.length ∧ start.edges = [] := by
    refine ⟨_, (pushRecords_ok_iff _ _ _).mpr ⟨?_, rfl⟩, rfl, ?_, rfl⟩
    · simpa [empty, nodeCount, List.range_eq_range'] using ids
    · simp [empty, nodeCount]
  have sound : Sound start := ⟨by rw [none]; exact .nil, by simp [none]⟩
  obtain ⟨g, added, vertices, gSound, edges⟩ := addRecords_of_within sound records.edges fun p member => by
    simpa [count] using fitting.within p.2 (List.mem_map_of_mem member)
  refine ⟨g, by simp only [ofRecords, pushed, added], ?_, gSound.ascending, by simpa [none] using edges⟩
  refine ⟨(records.vertices.mergeSort byId).map (·.2), ?_, ?_, ?_⟩
  · exact (List.mergeSort_perm records.vertices byId).map (·.2)
  · simpa [Function.comp_def] using ids
  · rw [vertices, made, List.map_map]
    rfl

theorem fitting_of_ofRecords {vertices : List VertexRecord} {edges : List Edge}
    (holds : Holds records vertices edges) (ok : ofRecords records = .ok g) : Fitting vertices edges := by
  obtain ⟨rfl, rfl⟩ := holds
  rw [ofRecords] at ok
  split at ok
  next => cases ok
  next start pushed =>
    obtain ⟨ids, rfl⟩ := (pushRecords_ok_iff _ _ _).mp pushed
    have within := within_of_addRecords ok
    constructor
    case dense =>
      have dense := (sorted_iff_dense records.vertices).mp (by
        simpa [empty, Graph.nodeCount, List.range_eq_range'] using ids)
      simpa [Function.comp_def] using dense
    case within =>
      intro e member
      obtain ⟨p, listed, rfl⟩ := List.mem_map.mp member
      simpa [empty, Graph.nodeCount] using within p listed

theorem Built.describes (built : Built (vertexRecords entries) (edgeRecords entries) g) :
    Describes entries g where
  nodeCount := by
    obtain ⟨sorted, perm, _, vertices⟩ := built.vertices
    rw [Graph.nodeCount, vertices, List.length_map, perm.length_eq]
  shown record member := by
    obtain ⟨sorted, perm, ids, vertices⟩ := built.vertices
    obtain ⟨k, there⟩ := List.getElem?_of_mem (perm.mem_iff.mpr member)
    have id : record.id = k := by
      have at_k := congrArg (·[k]?) ids
      simp only [List.getElem?_map, there, Option.map_some] at at_k
      exact (List.getElem?_eq_some_iff.mp at_k.symm).2.symm.trans (by simp)
    rw [id]
    apply view_of_vertex (v := made record)
    rw [vertices, List.getElem?_map, there]
    rfl
  ascending := built.ascending
  mem_edges := built.mem_edges

/-- Ids leave no choice of order. -/
theorem Built.unique {vertices vertices' : List VertexRecord} {edges edges' : List Edge}
    (built : Built vertices edges g) (built' : Built vertices' edges' h) (perm : vertices.Perm vertices')
    (same : ∀ e, e ∈ edges ↔ e ∈ edges') : g = h := by
  obtain ⟨sorted, from_, ids, made⟩ := built.vertices
  obtain ⟨sorted', from', ids', made'⟩ := built'.vertices
  have ascending {sorted : List VertexRecord} (ids : sorted.map (·.id) = List.range sorted.length) :
      sorted.Pairwise fun a b => a.id < b.id := by
    apply List.pairwise_map.mp
    rw [ids]
    exact List.pairwise_lt_range
  have order : sorted = sorted' := by
    apply ((from_.trans perm).trans from'.symm).eq_of_pairwise _ (ascending ids) (ascending ids')
    intro a b _ _ first second
    exact absurd first (Nat.lt_asymm second)
  have edges : g.edges = h.edges := by
    apply built.ascending.eq_of_mem_iff built'.ascending
    intro e
    rw [built.mem_edges, built'.mem_edges, same]
  exact Graph.mk.injEq .. |>.mpr ⟨by rw [made, made', order], edges⟩

/-! ### Order and repetition -/

theorem exists_entry_of_mem (spelled : List.Forall₂ Spells lines entries) (member : line ∈ lines) :
    ∃ entry ∈ entries, Spells line entry := by
  induction spelled with
  | nil => cases member
  | @cons _ entry _ _ here _ ih =>
    rcases List.mem_cons.mp member with rfl | later
    · exact ⟨entry, List.mem_cons_self, here⟩
    · obtain ⟨other, listed, spells⟩ := ih later
      exact ⟨other, List.mem_cons_of_mem entry listed, spells⟩

theorem WellFormed.rearranged (wellFormed : WellFormed lines entries) (moved : Rearranged lines lines') :
    ∃ entries', WellFormed lines' entries' ∧ (vertexRecords entries).Perm (vertexRecords entries') ∧
      ∀ e, e ∈ edgeRecords entries ↔ e ∈ edgeRecords entries' := by
  induction moved generalizing entries with
  | permute perm =>
    obtain ⟨entries', spelled, same⟩ := List.perm_comp_forall₂ (perm.symm.filter _) wellFormed.spelled
    have vertices : (vertexRecords entries').Perm (vertexRecords entries) := same.filterMap _
    have edges (e : Edge) : e ∈ edgeRecords entries' ↔ e ∈ edgeRecords entries :=
      (same.filterMap _).mem_iff
    refine ⟨entries', ⟨spelled, ?_, ?_⟩, vertices.symm, fun e => (edges e).symm⟩
    · rw [vertices.length_eq]
      exact (vertices.map _).trans wellFormed.fitting.dense
    · intro e member
      rw [vertices.length_eq]
      exact wellFormed.fitting.within e ((edges e).mp member)
  | blank blank =>
    refine ⟨entries, ⟨?_, wellFormed.fitting⟩, .refl _, fun e => .rfl⟩
    rw [inked_of_blank blank]
    exact wellFormed.spelled
  | @again lines payload member =>
    have notBlank : Text.isBlankLine (edgeKind ++ '\t' :: payload) = false := rfl
    have among : edgeKind ++ '\t' :: payload ∈ inked lines :=
      List.mem_filter.mpr ⟨member, by rw [notBlank]; rfl⟩
    obtain ⟨entry, listed, spells⟩ := exists_entry_of_mem wellFormed.spelled among
    obtain ⟨e, rfl⟩ := spells.edge_of_kind
    have known : e ∈ edgeRecords entries := List.mem_filterMap.mpr ⟨.edge e, listed, rfl⟩
    have edges (e' : Edge) : e' ∈ edgeRecords entries ↔ e' ∈ edgeRecords (.edge e :: entries) := by
      have more : edgeRecords (.edge e :: entries) = e :: edgeRecords entries := rfl
      rw [more, List.mem_cons]
      exact ⟨.inr, fun either => either.elim (fun same => same ▸ known) id⟩
    refine ⟨.edge e :: entries, ⟨?_, wellFormed.fitting.dense, ?_⟩, .refl _, edges⟩
    · rw [inked_of_not_blank notBlank]
      exact .cons spells wellFormed.spelled
    · exact fun e' member => wellFormed.fitting.within e' ((edges e').mpr member)
  | trans _ _ first second =>
    obtain ⟨between, wellFormed, perm, same⟩ := first wellFormed
    obtain ⟨entries', wellFormed', perm', same'⟩ := second wellFormed
    exact ⟨entries', wellFormed', perm.trans perm', fun e => (same e).trans (same' e)⟩

/-! ### The whole text -/

theorem ofLines_of_wellFormed (wellFormed : WellFormed lines entries) :
    ∃ g, ofLines (lines.map some) = .ok g ∧ Built (vertexRecords entries) (edgeRecords entries) g := by
  obtain ⟨records, read, holds⟩ := readLines_of_spelled wellFormed.spelled holds_nothing 1
  obtain ⟨g, ok, built⟩ := ofRecords_of_fitting holds wellFormed.fitting
  exact ⟨g, by simp only [ofLines, read, ok], built⟩

theorem wellFormed_of_ofLines (ok : ofLines (lines.map some) = .ok g) :
    ∃ entries, WellFormed lines entries := by
  rw [ofLines] at ok
  split at ok
  next => cases ok
  next records read =>
    obtain ⟨entries, spelled⟩ := spelled_of_readLines read
    obtain ⟨records', read', holds⟩ := readLines_of_spelled spelled holds_nothing 1
    obtain rfl := Except.ok.inj (read.symm.trans read')
    exact ⟨entries, spelled, fitting_of_ofRecords holds ok⟩

theorem ofBytes_bytes (s : String) : ofBytes (Text.bytes s) = ofText s.toList := by
  rw [ofBytes, ofText, ← Text.encode_toList, Text.byteLines_encode, List.map_map]
  refine congrArg ofLines (List.map_congr_left fun line _ => ?_)
  simp only [Function.comp_apply, Text.fromUTF8?_encode, Option.map_some, String.toList_ofList]

/-- A text is read exactly if it has the form, and then its graph is the one described. Lines can be moved and
edge lines repeated, and blank lines put in, without a change to the graph. -/
theorem read_iff_wellFormed (s : String) :
    ((∃ g, ofBytes (Text.bytes s) = .ok g) ↔ ∃ entries, WellFormed (Text.lines s.toList) entries) ∧
      (∀ entries, WellFormed (Text.lines s.toList) entries →
        ∃ g, ofBytes (Text.bytes s) = .ok g ∧ Describes entries g) ∧
      ∀ g, ofBytes (Text.bytes s) = .ok g → (∃ text, g.write = .ok text) ∧
        ∀ s' : String, Rearranged (Text.lines s.toList) (Text.lines s'.toList) →
          ofBytes (Text.bytes s') = .ok g := by
  rw [ofBytes_bytes, ofText]
  refine ⟨⟨?_, ?_⟩, ?_, ?_⟩
  · rintro ⟨g, ok⟩
    exact wellFormed_of_ofLines ok
  · rintro ⟨entries, wellFormed⟩
    obtain ⟨g, ok, _⟩ := ofLines_of_wellFormed wellFormed
    exact ⟨g, ok⟩
  · intro entries wellFormed
    obtain ⟨g, ok, built⟩ := ofLines_of_wellFormed wellFormed
    exact ⟨g, ok, built.describes⟩
  · intro g ok
    refine ⟨⟨_, write_of_sound (ofLines_sound ok)⟩, fun s' moved => ?_⟩
    obtain ⟨entries, wellFormed⟩ := wellFormed_of_ofLines ok
    obtain ⟨entries', wellFormed', vertices, edges⟩ := wellFormed.rearranged moved
    obtain ⟨h, ok', built⟩ := ofLines_of_wellFormed wellFormed
    obtain ⟨g', ok'', built'⟩ := ofLines_of_wellFormed wellFormed'
    obtain rfl := Except.ok.inj (ok.symm.trans ok')
    rw [ofBytes_bytes, ofText, ok'', built.unique built' vertices edges]

def linkedPair : Graph := ⟨[⟨mark "x", "x"⟩, ⟨mark "y", "y"⟩], [⟨0, 1, "t"⟩]⟩

def linkedPairEntries : List Entry := [.vertex ⟨0, mark "x"⟩, .vertex ⟨1, mark "y"⟩, .edge ⟨0, 1, "t"⟩]

/-- The edge comes first and once more at the end, the vertices backward, a blank line between them. -/
def scrambledLines : List (List Char) :=
  [linkedPair.bareEdge ⟨0, 1, "t"⟩, bareVertex ⟨mark "y", "y"⟩ 1, [' '], bareVertex ⟨mark "x", "x"⟩ 0,
    linkedPair.bareEdge ⟨0, 1, "t"⟩]

theorem scrambledLines_clean (member : line ∈ scrambledLines) :
    '\n' ∉ line ∧ line.getLast? ≠ some '\r' := by
  have cases : line ∈ linkedPair.bareLines ∨ line = [' '] := by
    simp only [scrambledLines, List.mem_cons, List.not_mem_nil, or_false] at member
    rcases member with rfl | rfl | rfl | rfl | rfl
    · exact .inl (.tail _ (.tail _ (.head _)))
    · exact .inl (.tail _ (.head _))
    · exact .inr rfl
    · exact .inl (.head _)
    · exact .inl (.tail _ (.tail _ (.head _)))
  rcases cases with bare | rfl
  · exact ⟨(bareLines_clean linkedPair bare).1, (bareLines_clean linkedPair bare).2.1⟩
  · exact ⟨by decide, by decide⟩

theorem scrambled_read :
    let tidy := String.ofList linkedPair.recordLines.flatten
    let scrambled := String.ofList (Text.unlines '\n' scrambledLines)
    WellFormed (Text.lines tidy.toList) linkedPairEntries ∧
      Rearranged (Text.lines tidy.toList) (Text.lines scrambled.toList) ∧
      ofBytes (Text.bytes tidy) = .ok linkedPair ∧ Describes linkedPairEntries linkedPair ∧
      ofBytes (Text.bytes scrambled) = .ok linkedPair := by
  intro tidy scrambled
  have tidyLines : Text.lines tidy.toList = linkedPair.bareLines := by
    rw [String.toList_ofList, lines_recordLines]
  have movedLines : Text.lines scrambled.toList = scrambledLines := by
    rw [String.toList_ofList]
    apply Text.linesOver_unlines
    · exact fun line member => (scrambledLines_clean member).1
    · exact fun line member => (scrambledLines_clean member).2
  have wellFormed : WellFormed (Text.lines tidy.toList) linkedPairEntries := by
    rw [tidyLines]
    refine ⟨?_, by decide, by decide⟩
    exact .cons (.vertex (VertexRecord.ofText?_write ⟨0, mark "x"⟩ (by decide)))
      (.cons (.vertex (VertexRecord.ofText?_write ⟨1, mark "y"⟩ (by decide)))
        (.cons (.edge (Edge.ofText?_write ⟨0, 1, "t"⟩ "x" "y" (by decide) (by decide))) .nil))
  have moved : Rearranged (Text.lines tidy.toList) (Text.lines scrambled.toList) := by
    rw [tidyLines, movedLines]
    have order (blank e v w : List Char) : [blank, e, v, w, e].Perm [e, w, blank, v, e] :=
      (List.Perm.swap e blank _).trans
        ((((List.Perm.swap w v [e]).cons blank).trans (List.Perm.swap w blank _)).cons e)
    have repeated : Rearranged linkedPair.bareLines
        (linkedPair.bareEdge ⟨0, 1, "t"⟩ :: linkedPair.bareLines) :=
      .again (.tail _ (.tail _ (.head _)))
    have parted (lines : List (List Char)) : Rearranged lines ([' '] :: lines) := .blank rfl
    exact .trans repeated (.trans (parted _) (.permute (order _ _ _ _)))
  have read : ofBytes (Text.bytes tidy) = .ok linkedPair := by
    rw [ofBytes_bytes, String.toList_ofList]
    exact ofText_recordLines ⟨by decide, by decide⟩ (by decide)
  obtain ⟨_, described, rearranged⟩ := read_iff_wellFormed tidy
  obtain ⟨g, ok, describes⟩ := described _ wellFormed
  obtain rfl := Except.ok.inj (read.symm.trans ok)
  exact ⟨wellFormed, moved, read, describes, (rearranged _ read).2 scrambled moved⟩

end Graph
end ProgramDependence
