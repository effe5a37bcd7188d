import Mathlib.Data.List.Forall2
import ProgramDependence.Proofs.Command.Output
import ProgramDependence.Proofs.Files.Write

/-! What a run writes of its slices comes apart again: an empty line stands between two slices and nowhere
else, so the groups of lines are the slices, and each is a text of its own. -/
namespace ProgramDependence

namespace Graph

variable {g : Graph}

/-- The text of a graph is its lines, and it is read back to a graph that is written the same. -/
theorem bareLines_read_back (sound : Sound g) (bound : g.nodeCount ≤ UInt64.size) :
    ∃ h, g.write = .ok (Text.unlines '\n' g.bareLines) ∧ ofText (Text.unlines '\n' g.bareLines) = .ok h ∧
      h.write = .ok (Text.unlines '\n' g.bareLines) := by
  rw [← recordLines_flatten]
  exact ⟨g.renewed, write_of_sound sound, ofText_recordLines sound bound, renewed_write sound⟩

theorem bareLines_ne_nil (some : 0 < g.nodeCount) : g.bareLines ≠ [] := by
  intro empty
  have lengths := congrArg List.length empty
  simp only [bareLines, List.length_append, List.length_map, List.length_zipIdx, List.length_nil] at lengths
  unfold nodeCount at some
  omega

/-- The lines of slices make groups that an empty line can stand between. -/
theorem slices_groups (sound : Sound g) (label : String) (group : List (List Char))
    (member : group ∈ (g.slices label).map bareLines) : group ≠ [] ∧
      ∀ line ∈ group, '\n' ∉ line ∧ line.getLast? ≠ some '\r' ∧ Text.isBlankLine line = false := by
  obtain ⟨slice, cut, rfl⟩ := List.mem_map.mp member
  exact ⟨bareLines_ne_nil (slices_nodeCount sound cut).1, fun _ inSlice => bareLines_clean slice inSlice⟩

theorem paragraphs_slices (sound : Sound g) (label : String) :
    Text.paragraphs (Text.unlines '\n' ([[]].intercalate ((g.slices label).map bareLines))) =
      (g.slices label).map bareLines := by
  apply Text.paragraphs_unlines
  · exact fun empty => (slices_groups sound label [] empty).1 rfl
  · intro group member line inGroup
    obtain ⟨whole, noReturn, shown⟩ := (slices_groups sound label group member).2 line inGroup
    refine ⟨?_, whole, noReturn⟩
    rintro rfl
    cases shown

theorem slices_eq_nil {label : String} (unmatched : ∀ k, g.label k ≠ .ok label) : g.slices label = [] := by
  rw [slices, List.map_eq_nil_iff, List.eq_nil_iff_forall_not_mem]
  intro k member
  obtain ⟨v, there, rfl⟩ := mem_labelled.mp member
  apply unmatched k
  simp only [Graph.label, vertex, there]
  rfl

end Graph

namespace Run

variable {o : Options} {d : Disk} {built : BuildResult}

/-- The text that a run left where its options say. -/
def writtenText? (o : Options) (r : RunResult) : Option (List Char) :=
  match targetOf o.output with
  | .stdout => some r.stdout
  | .file path =>
    match r.disk.find? path with
    | some (.file bytes) => (String.fromUTF8? bytes).map String.toList
    | _ => none

theorem writtenText?_finish (done : (finish o d built).result = .ok ()) :
    writtenText? o (finish o d built) = some (output o built).text := by
  cases target : targetOf o.output with
  | stdout => simp only [writtenText?, target, finish, deliver]
  | file path =>
    cases written : d.write? path (String.ofList (output o built).text).toUTF8 with
    | none =>
      simp only [finish, target, deliver, written] at done
      cases done
    | some d' =>
      simp only [writtenText?, target, finish, deliver, written, Disk.find?_write? written,
        Text.fromUTF8?_toUTF8, Option.map_some, String.toList_ofList]

end Run

/-- A text in which each of some graphs has a group of lines, with one empty line between two groups. Each
group is the text of its graph and reads back to a graph that is written the same. -/
structure Text.Apart (graphs : List Graph) (text : List Char) : Prop where
  joined : text = unlines '\n' ([[]].intercalate (paragraphs text))
  clean : ∀ group ∈ paragraphs text, group ≠ [] ∧
    ∀ line ∈ group, '\n' ∉ line ∧ isBlankLine line = false
  read : List.Forall₂ (fun g group => ∃ h, g.write = .ok (unlines '\n' group) ∧
    Graph.ofText (unlines '\n' group) = .ok h ∧ h.write = .ok (unlines '\n' group)) graphs (paragraphs text)

/-- A run with slices that succeeds has written one group of lines for each slice, in their order, and
nothing if no vertex shows the label. Vertices are numbered by words when they are read, so the input must
not have more bytes than there are words. -/
theorem slices_come_apart (unzip : Unzip) (o : Options) (d : Disk) (label : String) (sliced : o.slice = some label)
    (fits : d.sizeAt unzip o.input ≤ UInt64.size) (done : (run unzip o d).result = .ok ()) :
    ∃ built slices text, Run.prepare unzip o d = .ok built ∧ built.graph.slice label = .ok slices ∧
      Run.writtenText? o (run unzip o d) = some text ∧ Text.Apart slices text ∧
      ((∀ k, built.graph.label k ≠ .ok label) → text = []) := by
  rcases Run.prepare_cases unzip o d with ⟨e, failed, _⟩ | ⟨_, built, _, _, prepared⟩
  · rw [run, failed] at done
    cases done
  obtain ⟨sound, few⟩ := Run.prepare_graph prepared
  have same : run unzip o d = Run.finish o d built := by rw [run, prepared]
  have written := Run.writtenText?_finish (same ▸ done)
  have whole := Run.output_eq (Run.prepare_emissible prepared fun _ => fits)
  have shown : Run.shownGraphs o built.graph = built.graph.slices label := by
    rw [Run.shownGraphs, sliced]
  rw [whole, shown, ← same] at written
  have apart := Graph.paragraphs_slices sound label
  refine ⟨built, _, _, prepared, Graph.slice_of_sound sound label, written, ⟨?_, ?_, ?_⟩, fun unmatched => ?_⟩
  · rw [apart]
  · rw [apart]
    intro group member
    obtain ⟨some, clean⟩ := Graph.slices_groups sound label group member
    exact ⟨some, fun line inGroup => ⟨(clean line inGroup).1, (clean line inGroup).2.2⟩⟩
  · rw [apart, List.forall₂_map_right_iff, List.forall₂_same]
    intro slice member
    have part := (Graph.slices_nodeCount sound member).2
    exact Graph.bareLines_read_back (Graph.slices_sound sound member) (part.trans (few.trans fits))
  · rw [Graph.slices_eq_nil unmatched]
    rfl

theorem overloads_come_apart :
    (onOverloads none).slice = some "C.f" ∧ overloads.sizeAt Zip.openArchive "a.json" ≤ UInt64.size ∧
      (run Zip.openArchive (onOverloads none) overloads).result = .ok () ∧
      ∃ slices text, Run.writtenText? (onOverloads none) (run Zip.openArchive (onOverloads none) overloads) = some text ∧
        Text.Apart slices text ∧ slices.length = 2 := by
  have counted : ((Run.prepare Zip.openArchive (onOverloads none) overloads).toOption.map
      fun built => (built.graph.labelled "C.f").length) = some 2 := by decide +kernel
  cases prepared : Run.prepare Zip.openArchive (onOverloads none) overloads with
  | error e =>
    rw [prepared] at counted
    cases counted
  | ok built =>
    have whole := Run.output_eq (Run.prepare_emissible prepared fun _ => overloads_size)
    have done : (run Zip.openArchive (onOverloads none) overloads).result = .ok () := by
      rw [run, prepared]
      exact congrArg Run.Written.result whole
    obtain ⟨built', slices, text, again, cut, written, apart, _⟩ :=
      slices_come_apart Zip.openArchive (onOverloads none) overloads "C.f" rfl overloads_size done
    obtain rfl := Except.ok.inj (prepared.symm.trans again)
    rw [Graph.slice_of_sound (Run.prepare_graph prepared).1] at cut
    have two : slices.length = 2 := by
      rw [prepared] at counted
      rw [← Except.ok.inj cut, Graph.slices, List.length_map]
      exact Option.some.inj counted
    exact ⟨rfl, overloads_size, done, slices, text, written, apart, two⟩

end ProgramDependence
