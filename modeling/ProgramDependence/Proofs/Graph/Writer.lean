import ProgramDependence.Graph.Writer
import ProgramDependence.Proofs.Graph.Sound

/-! The text form of a graph whose edges end at its vertices. -/
namespace ProgramDependence.Graph

variable {g : Graph}

/-- The label shown at a number, if there is a vertex. -/
def labelAt (g : Graph) (k : Nat) : String := (g.vertices[k]?.map (·.label)).getD ""

theorem label_of_lt (bound : k < g.nodeCount) : g.label k = .ok (g.labelAt k) := by
  have there : g.vertices[k]? = some g.vertices[k] := List.getElem?_eq_getElem bound
  simp only [label, labelAt, vertex, there, Option.map_some, Option.getD_some]
  rfl

def edgeText (g : Graph) (e : Edge) : List Char :=
  recordLine edgeKind (e.toJson (g.labelAt e.source) (g.labelAt e.target))

theorem edgeLine_of_lt {e : Edge} (source : e.source < g.nodeCount) (target : e.target < g.nodeCount) :
    g.edgeLine e = .ok (g.edgeText e) := by
  simp only [edgeLine, label_of_lt source, label_of_lt target]
  rfl

theorem mapM_edgeLine (edges : List Edge)
    (within : ∀ e ∈ edges, e.source < g.nodeCount ∧ e.target < g.nodeCount) :
    edges.mapM g.edgeLine = .ok (edges.map g.edgeText) := by
  induction edges with
  | nil => rfl
  | cons e edges ih =>
    obtain ⟨source, target⟩ := within e List.mem_cons_self
    rw [List.mapM_cons, edgeLine_of_lt source target,
      ih fun e' member => within e' (List.mem_cons_of_mem e member)]
    rfl

/-- The lines of the text form, each with its end. -/
def recordLines (g : Graph) : List (List Char) :=
  (g.vertices.zipIdx.map fun (v, id) => vertexLine v id) ++ g.edges.map g.edgeText

theorem write_of_sound (sound : Sound g) : g.write = .ok g.recordLines.flatten := by
  simp only [write, mapM_edgeLine g.edges sound.within, recordLines, List.flatten_append]
  rfl

theorem text_of_sound (sound : Sound g) : g.text = .ok (String.ofList g.recordLines.flatten) := by
  rw [text, write_of_sound sound]
  rfl

theorem edgeLines_of_lt (edges : List Edge)
    (within : ∀ e ∈ edges, e.source < g.nodeCount ∧ e.target < g.nodeCount) :
    g.edgeLines edges = ((edges.map g.edgeText).flatten, .ok ()) := by
  induction edges with
  | nil => rfl
  | cons e edges ih =>
    obtain ⟨source, target⟩ := within e List.mem_cons_self
    simp only [edgeLines, edgeLine_of_lt source target,
      ih fun e' member => within e' (List.mem_cons_of_mem e member), List.map_cons, List.flatten_cons]

/-- Line by line, the same text is written, and to its end. -/
theorem stream_of_sound (sound : Sound g) : g.stream = (g.recordLines.flatten, .ok ()) := by
  simp only [stream, edgeLines_of_lt g.edges sound.within, recordLines, List.flatten_append]

end ProgramDependence.Graph
