import ProgramDependence.Files.Corpus
import ProgramDependence.Proofs.Code.Size

/-! What is loaded is no larger than the files it comes from. Whatever order they are taken in, every file
is taken once. -/
namespace ProgramDependence

namespace Faults

variable {f : Faults} {path : String} {bytes : Option ByteArray} {read : ByteArray}

theorem openFile_ok (opened : f.openFile path bytes = .ok read) : bytes = some read := by
  unfold openFile at opened
  split at opened
  · cases opened
  · cases opened
  · rw [Except.ok.inj opened]

theorem readFile_cases (f : Faults) (path : String) (bytes : ByteArray) :
    f.readFile path bytes = .ok bytes ∨ ∃ cause, f.readFile path bytes = .error cause := by
  unfold readFile
  cases f.reading path with
  | none => exact .inl rfl
  | some cause => exact .inr ⟨cause, rfl⟩

end Faults

/-- The bytes of the documents in an archive, unpacked. -/
def Archive.size (a : Archive) : Nat :=
  match a.documents with
  | .error _ => 0
  | .ok names => (names.map fun name => (a.read name).toOption.elim 0 ByteArray.size).sum

namespace FileTree

/-- The bytes of a file, or of the documents in it if it is an archive. -/
def fileSize (unzip : Unzip) (path : String) (bytes : ByteArray) : Nat :=
  match Path.kind path with
  | .archive => (unzip bytes).toOption.elim 0 Archive.size
  | _ => bytes.size

mutual

/-- The bytes of all files in a tree, those in archives included. -/
def size (unzip : Unzip) (path : String) : FileTree → Nat
  | .file bytes => fileSize unzip path bytes
  | .folder entries => sizeEntries unzip path entries

def sizeEntries (unzip : Unzip) (path : String) : List (String × FileTree) → Nat
  | [] => 0
  | (name, t) :: rest => t.size unzip (Path.join path name) + sizeEntries unzip path rest

end

end FileTree

/-- The bytes of all files that a path leads to. -/
def Disk.sizeAt (unzip : Unzip) (d : Disk) (path : String) : Nat :=
  (d.find? path).elim 0 (FileTree.size unzip path)

namespace Loaded

def weight (l : Loaded) : Nat := (l.classes.map Class.weight).sum

/-- What a result brings in. -/
def cost : Except LoadError Loaded → Nat
  | .error _ => 0
  | .ok l => l.weight

theorem cost_concat (results : List (Except LoadError Loaded)) :
    cost (concat results) ≤ (results.map cost).sum := by
  induction results with
  | nil => exact Nat.le_refl _
  | cons result results ih =>
    cases result with
    | error e => exact Nat.zero_le _
    | ok l =>
      simp only [concat, List.map_cons, List.sum_cons]
      cases rest : concat results with
      | error e => exact Nat.zero_le _
      | ok l' =>
        rw [rest] at ih
        have both : cost (Except.map l.append (.ok l')) = cost (.ok l) + cost (.ok l') := by
          simp [cost, Except.map, append, weight]
        rw [both]
        exact Nat.add_le_add_left ih _

theorem cost_inOrder (results : List (String × Except LoadError Loaded)) :
    cost (inOrder results) ≤ (results.map fun result => cost result.2).sum := by
  have same := ((List.mergeSort_perm results fun a b => !decide (b.1 < a.1)).map
    fun result => cost result.2).sum_eq
  rw [← same]
  refine (cost_concat _).trans ?_
  rw [List.map_map]
  exact Nat.le_refl _

theorem cost_ofDocument (path : String) (bytes : ByteArray) : cost (ofDocument path bytes) ≤ bytes.size := by
  unfold ofDocument
  split
  · exact Nat.zero_le _
  next classes decoded => exact Class.weight_le_of_bytes decoded

theorem cost_ofEntry (path : String) (a : Archive) (name : String) :
    cost (ofEntry path a name) ≤ (a.read name).toOption.elim 0 ByteArray.size := by
  unfold ofEntry
  cases a.read name with
  | error cause => exact Nat.zero_le _
  | ok bytes => exact cost_ofDocument _ bytes

theorem cost_ofArchive (path : String) (a : Archive) : cost (ofArchive path a) ≤ a.size := by
  unfold ofArchive Archive.size
  cases a.documents with
  | error cause => exact Nat.zero_le _
  | ok names =>
    refine (cost_inOrder _).trans ?_
    rw [List.map_map]
    exact List.sum_le_sum fun name _ => cost_ofEntry path a name

theorem cost_ofFile (unzip : Unzip) (f : Faults) (strict : Bool) (path : String) (bytes : Option ByteArray) :
    cost (ofFile unzip f strict path bytes) ≤ bytes.elim 0 (FileTree.fileSize unzip path) := by
  unfold ofFile FileTree.fileSize
  cases Path.kind path with
  | document =>
    cases opened : f.openFile path bytes with
    | error cause => exact Nat.zero_le _
    | ok read =>
      obtain rfl := Faults.openFile_ok opened
      rcases f.readFile_cases path read with same | ⟨cause, refused⟩
      · simp only [Except.bind, same]
        exact cost_ofDocument path read
      · simp only [Except.bind, refused]
        exact Nat.zero_le _
  | archive =>
    cases opened : f.openFile path bytes with
    | error cause => exact Nat.zero_le _
    | ok read =>
      obtain rfl := Faults.openFile_ok opened
      rcases f.readFile_cases path read with same | ⟨cause, refused⟩
      · simp only [Except.bind, same, Option.elim_some]
        cases unzip read with
        | error cause => exact Nat.zero_le _
        | ok a => exact cost_ofArchive path a
      · simp only [Except.bind, refused]
        exact Nat.zero_le _
  | other =>
    dsimp only
    split <;> exact Nat.zero_le _

theorem cost_ofListing (f : Faults) (path : String) (results : List (String × Except LoadError Loaded)) :
    cost (ofListing f path results) ≤ (results.map fun result => cost result.2).sum := by
  unfold ofListing
  split
  · exact Nat.zero_le _
  · exact Nat.zero_le _
  · exact cost_inOrder results

mutual

theorem cost_ofTree (unzip : Unzip) (f : Faults) (path : String) (t : FileTree) :
    cost (ofTree unzip f path t) ≤ t.size unzip path := by
  match t with
  | .file bytes => exact cost_ofFile unzip f false path (some bytes)
  | .folder entries => exact (cost_ofListing f path _).trans (cost_ofEntries unzip f path entries)

theorem cost_ofEntries (unzip : Unzip) (f : Faults) (path : String) (entries : List (String × FileTree)) :
    ((ofEntries unzip f path entries).map fun result => cost result.2).sum ≤
      FileTree.sizeEntries unzip path entries := by
  match entries with
  | [] => exact Nat.le_refl _
  | (name, t) :: rest =>
    exact Nat.add_le_add (cost_ofTree unzip f (Path.join path name) t) (cost_ofEntries unzip f path rest)

end

theorem cost_ofPath (unzip : Unzip) (d : Disk) (path : String) :
    cost (ofPath unzip d path) ≤ d.sizeAt unzip path := by
  unfold ofPath Disk.sizeAt
  split
  next entries found =>
    rw [found]
    exact cost_ofTree unzip d.faults path (.folder entries)
  next bytes found =>
    rw [found]
    exact cost_ofFile unzip d.faults true path (some bytes)
  next found =>
    rw [found]
    exact cost_ofFile unzip d.faults true path none

end Loaded

/-- The classes of a run are no larger than the files of its input. -/
theorem Corpus.weight_le {unzip : Unzip} {d : Disk} {corpus : Corpus}
    (loaded : load unzip d input classpath = .ok corpus) :
    (corpus.classes.map Class.weight).sum ≤ d.sizeAt unzip input := by
  have bound := Loaded.cost_ofPath unzip d input
  unfold load at loaded
  cases main : Loaded.ofPath unzip d input with
  | error e =>
    rw [main] at loaded
    cases loaded
  | ok l =>
    rw [main] at loaded bound
    cases library : Loaded.inOrder (classpath.map fun path => (path, Loaded.ofPath unzip d path)) with
    | error e =>
      rw [library] at loaded
      cases loaded
    | ok _ =>
      rw [library] at loaded
      cases loaded
      exact bound

end ProgramDependence
