import ProgramDependence.Command.Run
import ProgramDependence.Files.Zip

/-! The command line: arguments and files in, graph text and log out. -/
namespace ProgramDependence.Main

def usage : String :=
  "usage: program-dependence --input PATH [--classpath PATH]... [--output PATH]\n" ++
  "  [--exclude PATTERN]... [--label-type instruction|expression-tree|operator]\n" ++
  "  [--blocks unit|expanded] [--jobs N] [--slice LABEL] [--verify] [--quiet] [--timing]"

def describe : UsageError → String
  | .unknownArgument => "unexpected argument"
  | .unusableValue => "missing or unusable value for an option"
  | .repeated => "an option was given more than once"
  | .valueForFlag => "a flag takes no value"
  | .badNumber => "--jobs takes a number"
  | .noInput => "--input is required"
  | .helpWanted => usage
  | .versionWanted => "program-dependence"

/-- The names from the root to a path, with steps back taken. -/
def place (here : List String) (path : String) : List String :=
  (Path.components path).foldl
    (fun names c =>
      if c = "" || c = "." then names else if c = ".." then names.dropLast else names ++ [c])
    (if Path.isAbsolute path then [] else here)

/-- A table of refusals with one more, as the system words it. -/
def note (table : String → Option Cause) (path : String) (e : IO.Error) : String → Option Cause :=
  fun asked => if asked = path then some (.report (toString e)) else table asked

/-- What stands at a path, and what of it the system refuses. -/
partial def readTree (path : String) : StateT Faults IO FileTree := do
  let real := (← IO.currentDir) / path
  if ← real.isDir then
    match ← real.readDir.toBaseIO with
    | .error e =>
      modify fun f => { f with listing := note f.listing path e }
      return .folder []
    | .ok entries =>
      return .folder (← entries.toList.mapM fun e => do
        return (e.fileName, ← readTree (Path.join path e.fileName)))
  else
    match ← (IO.FS.readBinFile path).toBaseIO with
    | .error e =>
      modify fun f => { f with opening := note f.opening path e }
      return .file .empty
    | .ok bytes => return .file bytes

/-- Adds what stands at a path, and nothing if nothing does. -/
def look (d : Disk) (path : String) : IO Disk := do
  if ← ((← IO.currentDir) / path).pathExists then
    let (t, faults) ← (readTree path).run d.faults
    return { d with root := d.root.graft t (place d.here path), faults }
  else
    return d

/-- Adds the folder that a file is to be written to, without what is in it. -/
def lookBeside (d : Disk) (path : String) : IO Disk := do
  let real := (← IO.currentDir) / path
  let spot := place d.here path
  let isFolder := fun (t : Option FileTree) => t.any FileTree.isFolder
  if ← real.isDir then
    if isFolder (d.root.follow? spot) then return d
    return { d with root := d.root.graft (.folder []) spot }
  match real.parent with
  | some folder =>
    if (← folder.isDir) && !isFolder (d.root.follow? spot.dropLast) then
      return { d with root := d.root.graft (.folder []) spot.dropLast }
    return d
  | none => return d

def snapshot (o : Options) : IO Disk := do
  let here := place [] (toString (← IO.currentDir))
  let start : Disk := { root := (FileTree.folder []).graft (.folder []) here, here }
  let d ← (o.input :: o.classpath).foldlM look start
  match Run.targetOf o.output with
  | .stdout => return d
  | .file path => lookBeside d path

/-- Warnings and totals go to the log unless it is to be quiet. -/
def logEvent (o : Options) (e : Event) : IO Unit := do
  unless o.quiet || e.level = .debug do
    IO.eprintln s!"{e.level.name} {e.message}"

def save (o : Options) (d : Disk) : IO Unit := do
  match Run.targetOf o.output with
  | .stdout => return ()
  | .file path =>
    match d.find? path with
    | some (.file bytes) => IO.FS.writeBinFile path bytes
    | _ => return ()

/-- An error and what lies behind it. -/
def report (e : RunError) : String :=
  match e.causes with
  | [] => s!"Error: {e.message}"
  | causes => "\n    ".intercalate (s!"Error: {e.message}\n\nCaused by:" :: causes)

def execute (o : Options) : IO UInt32 := do
  let start ← IO.monoMsNow
  let outcome := run Zip.openArchive o (← snapshot o)
  outcome.events.forM (logEvent o)
  IO.print (String.ofList outcome.stdout)
  match outcome.result with
  | .error e =>
    IO.eprintln (report e)
    return 1
  | .ok () =>
    save o outcome.disk
    if o.timing && !o.quiet then
      let elapsed := (← IO.monoMsNow) - start
      IO.eprintln s!"timing: total_ms={elapsed}"
    return 0

end ProgramDependence.Main

open ProgramDependence in
def main (args : List String) : IO UInt32 := do
  match Options.parse args with
  | .ok o => Main.execute o
  | .error e =>
    let text := Main.describe e
    if e = .helpWanted || e = .versionWanted then
      IO.println text
      return 0
    else
      IO.eprintln s!"error: {text}"
      return 2
