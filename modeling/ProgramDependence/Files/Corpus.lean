import ProgramDependence.Code.Class
import ProgramDependence.Files.Archive

/-! The classes of a run, from documents in files, folders and archives. Whatever order a folder
or an archive lists its entries in, they are taken in the order of their names. -/
namespace ProgramDependence

inductive LoadError where
  | unlistable (path : String) (cause : Cause)
  | unlisted (path : String) (cause : Cause)
  | unreadable (path : String) (cause : Cause)
  | unopenable (path : String) (cause : Cause)
  | unparsable (path : String) (cause : Cause)
  | unsupported (path : String)

namespace LoadError

def message : LoadError → String
  | .unlistable path _ => s!"failed to read directory {path}"
  | .unlisted path _ => s!"failed to read entry under {path}"
  | .unreadable path _ => s!"failed to read {path}"
  | .unopenable path _ => s!"failed to open {path}"
  | .unparsable path _ => s!"failed to parse {path}"
  | .unsupported path => s!"unsupported input file: {path}"

def cause? : LoadError → Option Cause
  | .unlistable _ cause | .unlisted _ cause | .unreadable _ cause | .unopenable _ cause
  | .unparsable _ cause => some cause
  | .unsupported _ => none

end LoadError

/-- Classes in order and the number of documents they came from. -/
structure Loaded where
  classes : List Class := []
  documents : Nat := 0

namespace Loaded

def append (a b : Loaded) : Loaded := ⟨a.classes ++ b.classes, a.documents + b.documents⟩

/-- The first failure, or all results together. -/
def concat : List (Except ε Loaded) → Except ε Loaded
  | [] => .ok {}
  | .error e :: _ => .error e
  | .ok a :: rest => (concat rest).map a.append

/-- Results in the order of the paths they belong to. -/
def inOrder (results : List (String × Except ε Loaded)) : Except ε Loaded :=
  concat ((results.mergeSort fun a b => !decide (b.1 < a.1)).map (·.2))

def ofDocument (path : String) (bytes : ByteArray) : Except LoadError Loaded :=
  match Class.ofBytes? bytes with
  | none => .error (.unparsable path (.document bytes))
  | some classes => .ok ⟨classes, 1⟩

def ofEntry (path : String) (a : Archive) (name : String) : Except LoadError Loaded :=
  match a.read name with
  | .error cause => .error (.unreadable (path ++ ":" ++ name) cause)
  | .ok bytes => ofDocument (path ++ ":" ++ name) bytes

def ofArchive (path : String) (a : Archive) : Except LoadError Loaded :=
  match a.documents with
  | .error cause => .error (.unreadable path cause)
  | .ok names => inOrder (names.map fun name => (name, ofEntry path a name))

/-- A file by its extension. One of another extension is skipped, unless it was asked for by
name. -/
def ofFile (unzip : Unzip) (f : Faults) (strict : Bool) (path : String) (bytes : Option ByteArray) :
    Except LoadError Loaded :=
  match Path.kind path with
  | .document =>
    match (f.openFile path bytes).bind (f.readFile path) with
    | .error cause => .error (.unreadable path cause)
    | .ok bytes => ofDocument path bytes
  | .archive =>
    match f.openFile path bytes with
    | .error cause => .error (.unopenable path cause)
    | .ok bytes =>
      match (f.readFile path bytes).bind unzip with
      | .error cause => .error (.unreadable path cause)
      | .ok a => ofArchive path a
  | .other => if strict then .error (.unsupported path) else .ok {}

/-- What came of the entries of a folder, if it could be listed to the end. -/
def ofListing (f : Faults) (path : String) (results : List (String × Except LoadError Loaded)) :
    Except LoadError Loaded :=
  match f.listing path, f.entries path with
  | some cause, _ => .error (.unlistable path cause)
  | none, cause :: _ => .error (.unlisted path cause)
  | none, [] => inOrder results

mutual

def ofTree (unzip : Unzip) (f : Faults) (path : String) : FileTree → Except LoadError Loaded
  | .folder entries => ofListing f path (ofEntries unzip f path entries)
  | .file bytes => ofFile unzip f false path (some bytes)

def ofEntries (unzip : Unzip) (f : Faults) (path : String) : List (String × FileTree) →
    List (String × Except LoadError Loaded)
  | [] => []
  | (name, t) :: rest =>
    (Path.join path name, ofTree unzip f (Path.join path name) t) :: ofEntries unzip f path rest

end

/-- What a path that was asked for by name leads to. -/
def ofPath (unzip : Unzip) (d : Disk) (path : String) : Except LoadError Loaded :=
  match d.find? path with
  | some (.folder entries) => ofTree unzip d.faults path (.folder entries)
  | some (.file bytes) => ofFile unzip d.faults true path (some bytes)
  | none => ofFile unzip d.faults true path none

end Loaded

structure Corpus where
  classes : List Class
  /-- Classes that are loaded but not analysed. -/
  library : List Class
  documents : Nat

/-- The input first, then the class path in the order of its paths. -/
def Corpus.load (unzip : Unzip) (d : Disk) (input : String) (classpath : List String) :
    Except LoadError Corpus := do
  let main ← Loaded.ofPath unzip d input
  let library ← Loaded.inOrder (classpath.map fun path => (path, Loaded.ofPath unzip d path))
  .ok ⟨main.classes, library.classes, main.documents + library.documents⟩

end ProgramDependence
