import ProgramDependence.Text.Lines

/-! Files as a run sees them: a tree of folders and files, paths into it, and what the system says
where it refuses to list or to read something. -/
namespace ProgramDependence

inductive FileTree where
  | file (bytes : ByteArray)
  | folder (entries : List (String × FileTree))

/-- Why something cannot be had. -/
inductive Cause where
  /-- What the file system or the reader of an archive reports. -/
  | report (text : String)
  /-- Bytes that are not a document. -/
  | document (bytes : ByteArray)

def Cause.message : Cause → String
  | .report text => text
  | .document _ => "not a class or a list of classes"

/-- What is read from a file depends on its name. -/
inductive FileKind where
  | document
  | archive
  | other
  deriving DecidableEq, Repr

namespace Path

def components (path : String) : List String :=
  (Text.pieces '/' path.toList).map String.ofList

def isAbsolute (path : String) : Bool := path.toList.head? = some '/'

/-- A listed name under a folder. -/
def join (folder name : String) : String :=
  if folder.toList.getLast? = some '/' then folder ++ name else folder ++ "/" ++ name

/-- The last component, slashes and dots at the end aside. -/
def fileName? (path : String) : Option String :=
  match ((components path).reverse.dropWhile fun c => c = "" || c = ".").head? with
  | some name => if name = ".." then none else some name
  | none => none

/-- What follows the last dot of a name, unless the name has no other dot and starts with it. -/
def extensionOf? (name : List Char) : Option (List Char) :=
  let ending := name.reverse.takeWhile fun c => c ≠ '.'
  if name.length ≤ ending.length + 1 then none else some ending.reverse

def extension (path : String) : String :=
  String.ofList (((fileName? path).bind fun name => extensionOf? name.toList).getD [])

def kind (path : String) : FileKind :=
  match extension path with
  | "json" => .document
  | "jar" | "zip" => .archive
  | _ => .other

end Path

/-- What the system refuses, by the path that it is asked about. -/
structure Faults where
  listing : String → Option Cause := fun _ => none
  /-- The entries of a folder that are listed as failures, in the order of the listing. -/
  entries : String → List Cause := fun _ => []
  opening : String → Option Cause := fun _ => none
  reading : String → Option Cause := fun _ => none

namespace Faults

/-- Opens a file, which may not be there. -/
def openFile (f : Faults) (path : String) (bytes : Option ByteArray) : Except Cause ByteArray :=
  match f.opening path, bytes with
  | some cause, _ => .error cause
  | none, none => .error (.report "No such file or directory (os error 2)")
  | none, some bytes => .ok bytes

/-- Reads a file that is open. -/
def readFile (f : Faults) (path : String) (bytes : ByteArray) : Except Cause ByteArray :=
  match f.reading path with
  | some cause => .error cause
  | none => .ok bytes

end Faults

/-- A tree, the folder in it that relative paths start from, and what goes wrong with it. -/
structure Disk where
  root : FileTree
  here : List String := []
  faults : Faults := {}

namespace FileTree

def child? (t : FileTree) (name : String) : Option FileTree :=
  match t with
  | .folder entries => entries.lookup name
  | _ => none

def isFolder : FileTree → Bool
  | .folder _ => true
  | _ => false

def follow? (t : FileTree) : List String → Option FileTree
  | [] => some t
  | name :: names =>
    match t.child? name with
    | none => none
    | some t => t.follow? names

def setEntry (name : String) (t : FileTree) : List (String × FileTree) → List (String × FileTree)
  | [] => [(name, t)]
  | entry :: rest => if entry.1 = name then (name, t) :: rest else entry :: setEntry name t rest

/-- The tree with another one at the end of a way through its folders. -/
def graft (t : FileTree) (new : FileTree) : List String → FileTree
  | [] => new
  | name :: names =>
    match t with
    | .folder entries =>
      .folder (setEntry name (((entries.lookup name).getD (.folder [])).graft new names) entries)
    | t => t

end FileTree

namespace Disk

/-- The way from the root that some components lead, one by one. Only a folder can be left or
entered, also by the components that stay where they are. -/
def walk (d : Disk) (place : List String) : List String → Option (List String)
  | [] => some place
  | c :: cs =>
    match d.root.follow? place with
    | some (.folder entries) =>
      if c = "" || c = "." then d.walk place cs
      else if c = ".." then d.walk place.dropLast cs
      else if (entries.lookup c).isSome then d.walk (place ++ [c]) cs
      else none
    | _ => none

def startOf (d : Disk) (path : String) : List String := if Path.isAbsolute path then [] else d.here

def find? (d : Disk) (path : String) : Option FileTree :=
  if path = "" then none
  else (d.walk (d.startOf path) (Path.components path)).bind d.root.follow?

/-- The disk with a plain file at `path`, which must name a file or nothing in a folder that
exists. -/
def write? (d : Disk) (path : String) (bytes : ByteArray) : Option Disk := do
  let cs := Path.components path
  let name ← cs.getLast?
  let folder ← d.walk (d.startOf path) cs.dropLast
  let tree ← d.root.follow? folder
  if !tree.isFolder || name = "" || name = "." || name = ".." then none
  else if (tree.child? name).any FileTree.isFolder then none
  else some { d with root := d.root.graft (.file bytes) (folder ++ [name]) }

end Disk
end ProgramDependence
