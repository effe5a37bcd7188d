import ProgramDependence.Command.Options
import ProgramDependence.Files.Corpus
import ProgramDependence.Graph.Slice
import ProgramDependence.Graph.Verify
import ProgramDependence.Project.Build

/-! A whole run, from the files it reads to what it leaves behind. -/
namespace ProgramDependence

inductive RunError where
  | inputMissing (path : String)
  | classpathMissing (path : String)
  | noJobs
  | load (e : LoadError)
  | merge (e : MergeError)
  | unopenable (path : String)
  | unsliced (label : String) (e : GraphError)
  | unserialized (e : GraphError)
  | unverified (e : Graph.VerifyError)
  | unwritable (e : GraphError)

def RunError.message : RunError → String
  | .inputMissing path => s!"input not found: {path}"
  | .classpathMissing path => s!"classpath entry not found: {path}"
  | .noJobs => "--jobs must be at least 1"
  | .load e => e.message
  | .merge e => s!"failed to merge {e.signature}"
  | .unopenable path => s!"failed to open {path}"
  | .unsliced label _ => s!"failed to slice on {Text.quote label}"
  | .unserialized _ => "failed to serialize graph"
  | .unverified e => e.message
  | .unwritable _ => "failed to write graph"

/-- What lies behind an error, from the outside in. -/
def RunError.causes : RunError → List String
  | .load e => e.cause?.toList.map Cause.message
  | .merge e => [e.cause.message]
  | .unsliced _ e | .unserialized e | .unwritable e => [e.message]
  | .unverified (.unreadable e) => [e.message]
  | _ => []

/-- What a run leaves behind, whether it failed or not. -/
structure RunResult where
  result : Except RunError Unit
  stdout : List Char
  disk : Disk
  events : List Event

namespace Run

/-- The graph of a run, before anything is written. -/
def prepare (unzip : Unzip) (o : Options) (d : Disk) : Except RunError BuildResult :=
  if (d.find? o.input).isNone then .error (.inputMissing o.input)
  else match o.classpath.find? fun path => (d.find? path).isNone with
    | some path => .error (.classpathMissing path)
    | none =>
      if o.jobs = 0 then .error .noJobs
      else match Corpus.load unzip d o.input o.classpath with
        | .error e => .error (.load e)
        | .ok corpus =>
          match Project.build ⟨o.labelling, o.policy, o.excluded, o.jobs⟩ corpus.classes with
          | .error e => .error (.merge e)
          | .ok built => .ok built

/-! ### Output -/

inductive Target where
  | stdout
  | file (path : String)
  deriving DecidableEq, Repr

/-- A path that is just a dash means the standard output, whatever stands after it that does not
lead anywhere. -/
def targetOf : Option String → Target
  | none => .stdout
  | some path =>
    match Path.components path with
    | "-" :: rest => if rest.all fun c => c = "" || c = "." then .stdout else .file path
    | _ => .file path

/-- What was written, and what stopped it. -/
structure Written where
  text : List Char
  result : Except RunError Unit

/-- Goes on writing unless something stopped it. -/
def Written.andThen (first second : Written) : Written :=
  match first.result with
  | .error _ => first
  | .ok () => ⟨first.text ++ second.text, second.result⟩

/-- A graph line by line, or all at once after it was read back. -/
def emit (verify : Bool) (g : Graph) : Written :=
  if verify then
    match g.write with
    | .error e => ⟨[], .error (.unserialized e)⟩
    | .ok text =>
      match g.verify text with
      | .error e => ⟨[], .error (.unverified e)⟩
      | .ok () => ⟨text, .ok ()⟩
  else
    let (text, result) := g.stream
    match result with
    | .error e => ⟨text, .error (.unwritable e)⟩
    | .ok () => ⟨text, .ok ()⟩

/-- Writes graphs after others, an empty line before each. -/
def emitMore (verify : Bool) : List Graph → Written
  | [] => ⟨[], .ok ()⟩
  | g :: rest => Written.andThen ⟨['\n'], .ok ()⟩ ((emit verify g).andThen (emitMore verify rest))

def emitAll (verify : Bool) : List Graph → Written
  | [] => ⟨[], .ok ()⟩
  | g :: rest => (emit verify g).andThen (emitMore verify rest)

/-- The graphs a run writes: the whole graph or its slices. -/
def graphsOf (o : Options) (g : Graph) : Except RunError (List Graph) :=
  match o.slice with
  | none => .ok [g]
  | some label =>
    match g.slice label with
    | .error e => .error (.unsliced label e)
    | .ok slices => .ok slices

/-! ### Log -/

def beforeWriting (o : Options) (graphs : List Graph) : List Event :=
  match o.slice with
  | some label => if graphs.isEmpty then [.nothingLabelled label] else []
  | none => []

def lossesOf (s : Summary) : List Event :=
  if 0 < s.controlAbandoned || 0 < s.blocksDropped || 0 < s.edgesSkipped then [.losses s] else []

def afterWriting (o : Options) (graphs : List Graph) (b : BuildResult) : List Event :=
  (match o.slice with
    | some label => [.sliced graphs.length label]
    | none => []) ++
  .totals b.graph.nodeCount b.graph.edgeCount b.summary :: lossesOf b.summary

/-! ### The run -/

/-- What is done while the output is open. -/
structure Output extends Written where
  events : List Event

def output (o : Options) (b : BuildResult) : Output :=
  match graphsOf o b.graph with
  | .error e => ⟨⟨[], .error e⟩, []⟩
  | .ok graphs =>
    let written := emitAll o.verify graphs
    match written.result with
    | .error _ => ⟨written, beforeWriting o graphs⟩
    | .ok () => ⟨written, beforeWriting o graphs ++ afterWriting o graphs b⟩

/-- What is on the standard output and on the disk when the text is where it belongs. -/
def deliver (target : Target) (text : List Char) (d : Disk) : Except RunError (List Char × Disk) :=
  match target with
  | .stdout => .ok (text, d)
  | .file path =>
    match d.write? path (String.ofList text).toUTF8 with
    | none => .error (.unopenable path)
    | some d => .ok ([], d)

/-- A file is opened, and what was in it is gone, after the graph is built and before anything is
done with it. -/
def finish (o : Options) (d : Disk) (b : BuildResult) : RunResult :=
  let out := output o b
  match deliver (targetOf o.output) out.text d with
  | .error e => ⟨.error e, [], d, b.events⟩
  | .ok (stdout, disk) => ⟨out.result, stdout, disk, b.events ++ out.events⟩

end Run

def run (unzip : Unzip) (o : Options) (d : Disk) : RunResult :=
  match Run.prepare unzip o d with
  | .error e => ⟨.error e, [], d, []⟩
  | .ok built => Run.finish o d built

end ProgramDependence
