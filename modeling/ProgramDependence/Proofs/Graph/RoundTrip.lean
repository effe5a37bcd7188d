import ProgramDependence.Graph.Verify
import ProgramDependence.Proofs.Graph.Reachable
import ProgramDependence.Proofs.Graph.Record
import ProgramDependence.Proofs.Graph.Writer
import ProgramDependence.Proofs.Text.Lines

/-! Reading undoes writing, and verification accepts exactly the text of the graph. A graph that
was read back is made anew with the labels it showed: it has the same views and the same edges. -/
namespace ProgramDependence.Graph

variable {g h : Graph} {id : Nat} {text : List Char}

/-- The graph with every vertex made from the label it shows. -/
def renewed (g : Graph) : Graph := ⟨g.vertices.map fun v => ⟨v.view, v.label⟩, g.edges⟩

/-! ### Lines -/

def bareLine (kind : List Char) (record : Json) : List Char := kind ++ '\t' :: record.write

def bareVertex (v : Vertex) (id : Nat) : List Char :=
  bareLine vertexKind (VertexRecord.toJson ⟨id, v.view⟩)

def bareEdge (g : Graph) (e : Edge) : List Char :=
  bareLine edgeKind (e.toJson (g.labelAt e.source) (g.labelAt e.target))

def bareLines (g : Graph) : List (List Char) :=
  (g.vertices.zipIdx.map fun (v, id) => bareVertex v id) ++ g.edges.map g.bareEdge

theorem recordLines_flatten (g : Graph) : g.recordLines.flatten = Text.unlines '\n' g.bareLines := by
  simp only [recordLines, Text.unlines, bareLines, List.map_append, List.map_map]
  rfl

/-- What stands on a line of its own: a tab is the only control character in it. -/
theorem bareLine_char {kind : List Char} {record : Json} (printable : Json.Printable kind)
    (member : c ∈ bareLine kind record) : c = '\t' ∨ 0x20 ≤ c.toNat := by
  rcases List.mem_append.mp member with inKind | inRest
  · exact .inr (printable c inKind)
  · rcases List.mem_cons.mp inRest with tab | inRecord
    · exact .inl tab
    · exact .inr (Json.write_printable record c inRecord)

theorem kind_printable : Json.Printable vertexKind ∧ Json.Printable edgeKind :=
  ⟨Json.printable_of_all (by decide), Json.printable_of_all (by decide)⟩

theorem bareLines_char (g : Graph) (member : line ∈ g.bareLines) (inLine : c ∈ line) :
    c = '\t' ∨ 0x20 ≤ c.toNat := by
  rcases List.mem_append.mp member with vertex | edge
  · obtain ⟨p, _, rfl⟩ := List.mem_map.mp vertex
    exact bareLine_char kind_printable.1 inLine
  · obtain ⟨e, _, rfl⟩ := List.mem_map.mp edge
    exact bareLine_char kind_printable.2 inLine

/-- No line of a graph can be taken for several lines, for a longer one or for a blank one. -/
theorem bareLines_clean (g : Graph) (member : line ∈ g.bareLines) :
    '\n' ∉ line ∧ line.getLast? ≠ some '\r' ∧ Text.isBlankLine line = false := by
  refine ⟨fun inLine => ?_, fun last => ?_, ?_⟩
  · exact absurd (bareLines_char g member inLine) (by decide)
  · exact absurd (bareLines_char g member (List.mem_of_getLast? last)) (by decide)
  · rcases List.mem_append.mp member with vertex | edge
    · obtain ⟨p, _, rfl⟩ := List.mem_map.mp vertex
      rfl
    · obtain ⟨e, _, rfl⟩ := List.mem_map.mp edge
      rfl

theorem lines_recordLines (g : Graph) : Text.lines g.recordLines.flatten = g.bareLines := by
  rw [recordLines_flatten]
  apply Text.linesOver_unlines
  · exact fun line member => (bareLines_clean g member).1
  · exact fun line member => (bareLines_clean g member).2.1

/-! ### Records -/

theorem vertexKind_ne_edgeKind : edgeKind ≠ vertexKind := by decide

theorem readLine_bareVertex (records : Records) (number : Nat) (v : Vertex) (bound : id < UInt64.size) :
    readLine records number (bareVertex v id) =
      .ok { records with vertices := records.vertices ++ [(number, ⟨id, v.view⟩)] } := by
  have notBlank : Text.isBlankLine (bareVertex v id) = false := rfl
  have cut : Text.cutAt '\t' (bareVertex v id) =
      some (vertexKind, (VertexRecord.toJson ⟨id, v.view⟩).write) :=
    Text.cutAt_append _ _ (by decide)
  simp only [readLine, notBlank, cut, VertexRecord.ofText?_write ⟨id, v.view⟩ bound, ↓reduceIte,
    Bool.false_eq_true]

theorem readLine_bareEdge (records : Records) (number : Nat) (e : Edge)
    (source : e.source < UInt64.size) (target : e.target < UInt64.size) :
    readLine records number (g.bareEdge e) =
      .ok { records with edges := records.edges ++ [(number, e)] } := by
  have notBlank : Text.isBlankLine (g.bareEdge e) = false := rfl
  have cut : Text.cutAt '\t' (g.bareEdge e) =
      some (edgeKind, (e.toJson (g.labelAt e.source) (g.labelAt e.target)).write) :=
    Text.cutAt_append _ _ (by decide)
  simp only [readLine, notBlank, cut, vertexKind_ne_edgeKind, ↓reduceIte, Bool.false_eq_true,
    Edge.ofText?_write e _ _ source target]

/-- The vertices of a graph stand on its first lines. -/
def numbered (vertices : List Vertex) (first : Nat) : List (Nat × VertexRecord) :=
  (vertices.zipIdx first).map fun (v, id) => (id + 1, ⟨id, v.view⟩)

theorem readLines_vertices (vertices : List Vertex) (first : Nat)
    (bound : first + vertices.length ≤ UInt64.size) (records : Records)
    (rest : List (Option (List Char))) :
    readLines records (first + 1)
        (((vertices.zipIdx first).map fun (v, id) => some (bareVertex v id)) ++ rest) =
      readLines { records with vertices := records.vertices ++ numbered vertices first }
        (first + vertices.length + 1) rest := by
  induction vertices generalizing first records with
  | nil => simp [numbered]
  | cons v vertices ih =>
    simp only [List.length_cons] at bound
    have here : first < UInt64.size := by omega
    have next := ih (first + 1) (by omega)
      { records with vertices := records.vertices ++ [(first + 1, ⟨first, v.view⟩)] }
    simp only [List.zipIdx_cons, List.map_cons, List.cons_append, readLines,
      readLine_bareVertex records (first + 1) v here]
    rw [next]
    simp only [numbered, List.zipIdx_cons, List.map_cons, List.append_assoc, List.cons_append,
      List.nil_append, List.length_cons]
    congr 1
    omega

theorem readLines_edges (edges : List Edge) (number : Nat) (records : Records)
    (bounds : ∀ e ∈ edges, e.source < UInt64.size ∧ e.target < UInt64.size) :
    ∃ found : List (Nat × Edge), found.map (·.2) = edges ∧
      readLines records number (edges.map fun e => some (g.bareEdge e)) =
        .ok { records with edges := records.edges ++ found } := by
  induction edges generalizing number records with
  | nil => exact ⟨[], rfl, by simp [readLines]⟩
  | cons e edges ih =>
    obtain ⟨source, target⟩ := bounds e List.mem_cons_self
    obtain ⟨found, same, read⟩ := ih (number + 1) { records with edges := records.edges ++ [(number, e)] }
      fun e' member => bounds e' (List.mem_cons_of_mem e member)
    refine ⟨(number, e) :: found, by simp [same], ?_⟩
    simp only [List.map_cons, readLines, readLine_bareEdge records number e source target, read,
      List.append_assoc, List.cons_append, List.nil_append]

/-! ### Vertices and edges -/

theorem numbered_sorted (vertices : List Vertex) (first : Nat) :
    (numbered vertices first).Pairwise fun a b => byId a b = true := by
  have ascending : (vertices.zipIdx first).Pairwise fun a b => a.2 < b.2 := by
    have indices : ((vertices.zipIdx first).map (·.2)).Pairwise (· < ·) := by
      rw [List.zipIdx_map_snd]
      exact List.pairwise_lt_range'
    exact List.pairwise_map.mp indices
  refine List.pairwise_map.mpr (ascending.imp fun before => ?_)
  simp only [byId, decide_eq_true_eq]
  exact Nat.le_of_lt before

theorem pushRecords_numbered (g : Graph) (vertices : List Vertex) :
    pushRecords g (numbered vertices g.nodeCount) =
      .ok { g with vertices := g.vertices ++ vertices.map fun v => ⟨v.view, v.label⟩ } := by
  induction vertices generalizing g with
  | nil => simp [numbered, pushRecords]
  | cons v vertices ih =>
    have next := ih (g.push v.view)
    rw [push_nodeCount] at next
    simp only [numbered, List.zipIdx_cons, List.map_cons, pushRecords, ↓reduceIte] at next ⊢
    rw [next]
    simp [push, Vertex.view]

theorem addRecords_ascending (g : Graph) (found : List (Nat × Edge))
    (ascending : (g.edges ++ found.map (·.2)).Pairwise (· < ·))
    (within : ∀ p ∈ found, p.2.source < g.nodeCount ∧ p.2.target < g.nodeCount) :
    addRecords g found = .ok { g with edges := g.edges ++ found.map (·.2) } := by
  induction found generalizing g with
  | nil => simp [addRecords]
  | cons p found ih =>
    obtain ⟨line, e⟩ := p
    obtain ⟨source, target⟩ := within (line, e) List.mem_cons_self
    obtain ⟨_, _, before⟩ := List.pairwise_append.mp ascending
    have last : Ascending.insert e g.edges = g.edges ++ [e] :=
      Ascending.insert_after e g.edges fun e' member => before e' member e List.mem_cons_self
    have added : g.addEdge e.source e.target e.tag = .ok { g with edges := g.edges ++ [e] } := by
      rw [addEdge_of_lt g e.tag source target, ← last]
    simp only [addRecords, added]
    rw [ih { g with edges := g.edges ++ [e] } (by simpa using ascending)
      fun p member => within p (List.mem_cons_of_mem _ member)]
    simp

/-! ### The whole text -/

/-- The text of a graph reads back. -/
theorem ofText_recordLines (sound : Sound g) (bound : g.nodeCount ≤ UInt64.size) :
    ofText g.recordLines.flatten = .ok g.renewed := by
  have bounds : ∀ e ∈ g.edges, e.source < UInt64.size ∧ e.target < UInt64.size := by
    intro e member
    obtain ⟨source, target⟩ := sound.within e member
    omega
  have vertexLines := readLines_vertices g.vertices 0 (by simpa [nodeCount] using bound) {}
    (g.edges.map fun e => some (g.bareEdge e))
  obtain ⟨found, same, edgeLines⟩ := readLines_edges (g := g) g.edges (0 + g.vertices.length + 1)
    { vertices := [] ++ numbered g.vertices 0 } bounds
  have read : readLines {} 1 (g.bareLines.map some) =
      .ok { vertices := numbered g.vertices 0, edges := found } := by
    simp only [bareLines, List.map_append, List.map_map]
    exact vertexLines.trans edgeLines
  have pushed := pushRecords_numbered empty g.vertices
  have count : (empty.nodeCount) = 0 := rfl
  rw [count] at pushed
  simp only [ofText, lines_recordLines, ofLines, read, ofRecords,
    List.mergeSort_of_pairwise (numbered_sorted g.vertices 0), pushed]
  rw [addRecords_ascending _ found]
  · simp [renewed, empty, same]
  · simpa [empty, same] using sound.ascending
  · intro p member
    have listed : p.2 ∈ g.edges := same ▸ List.mem_map_of_mem member
    simpa [nodeCount, empty] using sound.within p.2 listed

/-- Graphs with the same views and the same edges have the same text. -/
theorem write_congr (views : g.vertices.map Vertex.view = h.vertices.map Vertex.view)
    (edges : g.edges = h.edges) : g.write = h.write := by
  have labels (k : Nat) : g.label k = h.label k := by
    have at_k := congrArg (·[k]?) views
    simp only [List.getElem?_map] at at_k
    unfold label vertex
    cases first : g.vertices[k]? <;> cases second : h.vertices[k]? <;> simp [first, second] at at_k ⊢
    next v w =>
      exact congrArg (Except.ok ∘ Identity.label) at_k
  have vertexLines : (g.vertices.zipIdx.map fun (v, id) => vertexLine v id) =
      h.vertices.zipIdx.map fun (v, id) => vertexLine v id := by
    have through (vertices : List Vertex) : (vertices.zipIdx.map fun (v, id) => vertexLine v id) =
        (vertices.map Vertex.view).zipIdx.map fun (i, id) =>
          recordLine vertexKind (VertexRecord.toJson ⟨id, i⟩) := by
      rw [List.zipIdx_map, List.map_map]
      rfl
    rw [through, through, views]
  have edgeLines : g.edgeLine = h.edgeLine := by
    funext e
    simp only [edgeLine, labels]
  simp only [write, vertexLines, edgeLines, edges]

theorem renewed_views (g : Graph) : g.renewed.vertices.map Vertex.view = g.vertices.map Vertex.view := by
  simp only [renewed, List.map_map]
  rfl

theorem renewed_write (sound : Sound g) : g.renewed.write = .ok g.recordLines.flatten :=
  (write_congr (renewed_views g) rfl).trans (write_of_sound sound)

theorem firstDifference?_eq_none (count : h.nodeCount = g.nodeCount) :
    firstDifference? g h = none ↔ g.vertices.map Vertex.view = h.vertices.map Vertex.view := by
  simp only [firstDifference?, List.find?_eq_none, List.mem_range, decide_eq_true_eq, not_not]
  constructor
  · intro same
    refine List.ext_getElem? fun k => ?_
    simp only [List.getElem?_map]
    by_cases bound : k < g.nodeCount
    · exact same k bound
    · have past : g.vertices.length ≤ k := Nat.le_of_not_lt bound
      have past' : h.vertices.length ≤ k := count.le.trans past
      rw [List.getElem?_eq_none past, List.getElem?_eq_none past']
  · intro same k _
    simpa using congrArg (·[k]?) same

/-- Verification asks for four things. -/
theorem verify_eq_ok : verify g text = .ok () ↔ ∃ h, ofText text = .ok h ∧
    g.vertices.map Vertex.view = h.vertices.map Vertex.view ∧ h.edges = g.edges ∧
    h.write = .ok text := by
  unfold verify
  cases read : ofText text with
  | error e => simp
  | ok h =>
    simp only [Except.ok.injEq, exists_eq_left']
    by_cases count : h.nodeCount = g.nodeCount
    · rw [if_neg (not_not.mpr count)]
      cases differs : firstDifference? g h with
      | some id =>
        have views := mt (firstDifference?_eq_none count).mpr (by simp [differs])
        simp [views]
      | none =>
        have views := (firstDifference?_eq_none count).mp differs
        by_cases edges : h.edges = g.edges
        · cases written : h.write with
          | error e => simp [edges]
          | ok again =>
            by_cases same : again = text <;> simp [edges, views, same]
        · simp [edges]
    · have views : g.vertices.map Vertex.view ≠ h.vertices.map Vertex.view := fun same => by
        have lengths := congrArg List.length same
        simp only [List.length_map] at lengths
        exact count lengths.symm
      simp [count, views]

theorem verify_recordLines (sound : Sound g) (bound : g.nodeCount ≤ UInt64.size) :
    verify g g.recordLines.flatten = .ok () :=
  verify_eq_ok.mpr
    ⟨g.renewed, ofText_recordLines sound bound, (renewed_views g).symm, rfl, renewed_write sound⟩

/-- Verification accepts the text of a graph and no other, and that text reads back to a graph with
the same views and edges that is written the same. Vertices are numbered by words, so there are
never more of them than words. -/
theorem verify_iff_write (reachable : Reachable g) (bound : g.nodeCount ≤ UInt64.size) :
    (∀ text, verify g text = .ok () ↔ g.write = .ok text) ∧
      ∃ text h, g.write = .ok text ∧ ofText text = .ok h ∧
        h.vertices.map Vertex.view = g.vertices.map Vertex.view ∧ h.edges = g.edges ∧
        h.write = .ok text := by
  have written := write_of_sound reachable.sound
  have read := ofText_recordLines reachable.sound bound
  have again : g.renewed.write = .ok g.recordLines.flatten :=
    (write_congr (renewed_views g) rfl).trans written
  refine ⟨fun text => ⟨fun accepted => ?_, fun same => ?_⟩,
    _, _, written, read, renewed_views g, rfl, again⟩
  · obtain ⟨h, _, views, edges, rewritten⟩ := verify_eq_ok.mp accepted
    rw [write_congr views edges.symm]
    exact rewritten
  · have same : g.recordLines.flatten = text := Except.ok.inj (written.symm.trans same)
    subst same
    exact verify_eq_ok.mpr ⟨g.renewed, read, (renewed_views g).symm, rfl, again⟩

/-- One vertex, relabelled with what a text has to escape, and a loop on it. -/
def relabelledLoop : Graph :=
  ⟨[⟨⟨"s", "", "p", "p.C", "", "p.C.m(\"\\\")", "stmt", ⟨-1, 0, 9223372036854775807, 3⟩⟩,
    "a\tb\r\n\u0000é😀"⟩], [⟨0, 0, "x:\n"⟩]⟩

theorem verify_relabelledLoop : Reachable relabelledLoop ∧ relabelledLoop.nodeCount ≤ UInt64.size ∧
    (∀ text, verify relabelledLoop text = .ok () ↔ relabelledLoop.write = .ok text) ∧
      ∃ text h, relabelledLoop.write = .ok text ∧ ofText text = .ok h ∧
        h.vertices.map Vertex.view = relabelledLoop.vertices.map Vertex.view ∧
        h.edges = relabelledLoop.edges ∧ h.write = .ok text := by
  have reachable : Reachable relabelledLoop :=
    .addEdge 0 0 _ (.relabel 0 _ (.intern _ .empty) rfl) rfl
  have bound : relabelledLoop.nodeCount ≤ UInt64.size := by decide
  exact ⟨reachable, bound, verify_iff_write reachable bound⟩

end ProgramDependence.Graph
