import ProgramDependence.Command.Run
import ProgramDependence.Files.Zip
import ProgramDependence.Proofs.Files.Size
import ProgramDependence.Proofs.Graph.RoundTrip
import ProgramDependence.Proofs.Graph.Slice
import ProgramDependence.Proofs.Project.Size

/-! Once the graph is built and the output is open nothing can go wrong any more. What is built is sound,
so it can be sliced and written, and it has no more vertices than the input has bytes, so that it can be
read back as well. A run that fails has failed before it wrote anything. -/
namespace ProgramDependence

/-- Whether the output is open when it arises. -/
def RunError.isLate : RunError → Bool
  | .unsliced _ _ | .unserialized _ | .unverified _ | .unwritable _ => true
  | _ => false

namespace Run

variable {unzip : Unzip} {o : Options} {d : Disk} {built : BuildResult} {g : Graph}

/-! ### The graph -/

/-- The graph is built of the classes that were loaded, or the run fails while nothing is open. -/
theorem prepare_cases (unzip : Unzip) (o : Options) (d : Disk) :
    (∃ e, prepare unzip o d = .error e ∧ e.isLate = false) ∨
      ∃ corpus built, Corpus.load unzip d o.input o.classpath = .ok corpus ∧
        Project.build ⟨o.labelling, o.policy, o.excluded, o.jobs⟩ corpus.classes = .ok built ∧
        prepare unzip o d = .ok built := by
  unfold prepare
  split
  · exact .inl ⟨_, rfl, rfl⟩
  · split
    · exact .inl ⟨_, rfl, rfl⟩
    · split
      · exact .inl ⟨_, rfl, rfl⟩
      · split
        · exact .inl ⟨_, rfl, rfl⟩
        next corpus loaded =>
          split
          · exact .inl ⟨_, rfl, rfl⟩
          next built done => exact .inr ⟨corpus, built, loaded, done, rfl⟩

/-- Whatever the input holds, the edges end at vertices, and there are no more vertices than bytes. -/
theorem prepare_graph (prepared : prepare unzip o d = .ok built) :
    Graph.Sound built.graph ∧ built.graph.nodeCount ≤ d.sizeAt unzip o.input := by
  rcases prepare_cases unzip o d with ⟨e, failed, _⟩ | ⟨corpus, built', loaded, done, same⟩
  · cases prepared.symm.trans failed
  · obtain rfl := Except.ok.inj (prepared.symm.trans same)
    rw [Project.build_eq] at done
    cases done
    have few := Project.build_nodeCount_le ⟨o.labelling, o.policy, o.excluded, o.jobs⟩ corpus.classes
    exact ⟨(Project.build_extends _ corpus.classes).plain.sound, few.trans (Corpus.weight_le loaded)⟩

/-! ### What is written -/

/-- A graph that can be written, and read back if that is asked for. -/
structure Emissible (verify : Bool) (g : Graph) : Prop where
  sound : Graph.Sound g
  bound : verify = true → g.nodeCount ≤ UInt64.size

theorem emit_eq {verify : Bool} (fine : Emissible verify g) :
    emit verify g = ⟨g.recordLines.flatten, .ok ()⟩ := by
  cases verify with
  | true =>
    have accepted := Graph.verify_recordLines fine.sound (fine.bound rfl)
    simp only [emit, ↓reduceIte, Graph.write_of_sound fine.sound, accepted]
  | false => simp only [emit, Bool.false_eq_true, ↓reduceIte, Graph.stream_of_sound fine.sound]

theorem emitAll_eq {verify : Bool} (graphs : List Graph) (fine : ∀ g ∈ graphs, Emissible verify g) :
    emitAll verify graphs =
      ⟨Text.unlines '\n' ([[]].intercalate (graphs.map Graph.bareLines)), .ok ()⟩ := by
  induction graphs with
  | nil => rfl
  | cons g graphs ih =>
    have first := emit_eq (fine g List.mem_cons_self)
    rw [Graph.recordLines_flatten] at first
    have rest := ih fun h member => fine h (List.mem_cons_of_mem g member)
    cases graphs with
    | nil =>
      simp [emitAll, emitMore, Written.andThen, first]
    | cons h graphs =>
      -- What follows the first graph is an empty line and what would be written of the others alone.
      have more : emitAll verify (g :: h :: graphs) =
          (emit verify g).andThen (Written.andThen ⟨['\n'], .ok ()⟩ (emitAll verify (h :: graphs))) := rfl
      rw [more, first, rest]
      simp [Written.andThen, List.intercalate_cons_cons, Text.unlines]

/-- The graphs of a run whose graph is sound. -/
def shownGraphs (o : Options) (g : Graph) : List Graph :=
  match o.slice with
  | none => [g]
  | some label => g.slices label

theorem graphsOf_eq (sound : Graph.Sound g) : graphsOf o g = .ok (shownGraphs o g) := by
  unfold graphsOf shownGraphs
  cases o.slice with
  | none => rfl
  | some label => simp only [Graph.slice_of_sound sound label]

theorem shownGraphs_emissible (fine : Emissible o.verify g) :
    ∀ h ∈ shownGraphs o g, Emissible o.verify h := by
  intro h member
  unfold shownGraphs at member
  split at member
  · obtain rfl := List.mem_singleton.mp member
    exact fine
  · have part := Graph.slices_nodeCount fine.sound member
    exact ⟨Graph.slices_sound fine.sound member, fun asked => part.2.trans (fine.bound asked)⟩

/-- All that is to be written is written. -/
theorem output_eq (fine : Emissible o.verify built.graph) : (output o built).toWritten =
    ⟨Text.unlines '\n' ([[]].intercalate ((shownGraphs o built.graph).map Graph.bareLines)), .ok ()⟩ := by
  have written := emitAll_eq _ (shownGraphs_emissible fine)
  simp only [output, graphsOf_eq fine.sound, written]

theorem prepare_emissible (prepared : prepare unzip o d = .ok built)
    (fits : o.verify = true → d.sizeAt unzip o.input ≤ UInt64.size) : Emissible o.verify built.graph := by
  obtain ⟨sound, few⟩ := prepare_graph prepared
  exact ⟨sound, fun asked => few.trans (fits asked)⟩

/-! ### Failures -/

theorem deliver_error {target : Target} {text : List Char} (failed : deliver target text d = .error e) :
    ∃ path, e = .unopenable path := by
  cases target with
  | stdout => cases failed
  | file path =>
    simp only [deliver] at failed
    split at failed
    · cases failed
      exact ⟨path, rfl⟩
    · cases failed

end Run

/-- A run that fails leaves nothing on the standard output and the disk as it was, for nothing fails after
the output was opened. A graph is read back with its vertices numbered by words, so where it is verified the
input must not have more bytes than there are words. -/
theorem run_error_leaves_nothing (unzip : Unzip) (o : Options) (d : Disk)
    (fits : o.verify = true → d.sizeAt unzip o.input ≤ UInt64.size) :
    (∀ e, (run unzip o d).result = .error e →
      (run unzip o d).stdout = [] ∧ (run unzip o d).disk = d ∧ e.isLate = false) ∧
      ∀ built, Run.prepare unzip o d = .ok built → (Run.output o built).result = .ok () := by
  have complete (built : BuildResult) (prepared : Run.prepare unzip o d = .ok built) :
      (Run.output o built).result = .ok () :=
    congrArg Run.Written.result (Run.output_eq (Run.prepare_emissible prepared fits))
  refine ⟨fun e failed => ?_, complete⟩
  rcases Run.prepare_cases unzip o d with ⟨cause, stopped, early⟩ | ⟨_, built, _, _, prepared⟩
  · simp only [run, stopped] at failed ⊢
    cases failed
    exact ⟨trivial, trivial, early⟩
  · simp only [run, prepared, Run.finish] at failed ⊢
    cases delivered : Run.deliver (Run.targetOf o.output) (Run.output o built).text d with
    | error cause =>
      simp only [delivered] at failed ⊢
      cases failed
      obtain ⟨path, rfl⟩ := Run.deliver_error delivered
      exact ⟨trivial, trivial, rfl⟩
    | ok _ =>
      simp only [delivered, complete built prepared] at failed
      cases failed

/-- A class with two methods of one name, both without a body. -/
def overloads : Disk :=
  let method (signature : String) : Json := .obj [("name", .str "f"), ("signature", .str signature)]
  let document : Json := .obj [("package_name", .str "p"), ("name", .str "C"),
    ("methods", .arr [method "f()", method "f(I)"])]
  { root := .folder [("a.json", .file (String.ofList document.write).toUTF8)] }

/-- A verified run on `a.json` that slices on the label of these methods. -/
def onOverloads (output : Option String) : Options :=
  ⟨"a.json", [], output, [], .trees, .expanded, 1, true, some "C.f", false, false⟩

theorem overloads_size : overloads.sizeAt Zip.openArchive "a.json" ≤ UInt64.size := by decide +kernel

theorem overloads_to_missing_folder :
    overloads.sizeAt Zip.openArchive "a.json" ≤ UInt64.size ∧ (run Zip.openArchive (onOverloads (some "b/c")) overloads).result.isOk = false ∧
      (run Zip.openArchive (onOverloads (some "b/c")) overloads).stdout = [] ∧
      (run Zip.openArchive (onOverloads (some "b/c")) overloads).disk = overloads := by
  have failed : (run Zip.openArchive (onOverloads (some "b/c")) overloads).result.isOk = false := by decide +kernel
  obtain ⟨clean, _⟩ := run_error_leaves_nothing Zip.openArchive (onOverloads (some "b/c")) overloads fun _ => overloads_size
  cases result : (run Zip.openArchive (onOverloads (some "b/c")) overloads).result with
  | ok _ =>
    rw [result] at failed
    cases failed
  | error e =>
    obtain ⟨stdout, disk, _⟩ := clean e result
    exact ⟨overloads_size, rfl, stdout, disk⟩

end ProgramDependence
