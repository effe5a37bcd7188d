import ProgramDependence.Graph.Merge
import ProgramDependence.Method.Build
import ProgramDependence.Project.Exclusion

/-! One graph for many classes. With several jobs every method is built in a graph of its own
and these are absorbed in order; nodes keep the numbers they have with one job. -/
namespace ProgramDependence

structure BuildOptions where
  labelling : Labelling
  policy : Policy
  excluded : List String
  jobs : Nat

structure BuildResult where
  graph : Graph
  summary : Summary
  events : List Event

/-- A method's own graph could not be absorbed. -/
structure MergeError where
  signature : String
  cause : GraphError
  deriving DecidableEq, Repr

/-- What came of one method: the graph with it, and what was logged. -/
structure TaskResult where
  graph : Graph
  outcome : Outcome
  events : List Event

/-- The result so far with one more method in it, whose graph is now `g`. -/
def BuildResult.add (r : BuildResult) (g : Graph) (t : TaskResult) : BuildResult :=
  ⟨g, r.summary.record t.outcome, r.events ++ t.events⟩

namespace Project

/-- A method and the class it belongs to. -/
abbrev Task := Class × Method

/-- A method without a body adds nothing, one with a bad body is skipped. -/
def runTask (o : BuildOptions) (g : Graph) (t : Task) : TaskResult :=
  let (c, m) := t
  match m.body with
  | none => ⟨g, .noBody, [.noBody m.signature]⟩
  | some raw =>
    match Body.ofJson? raw with
    | none => ⟨g, .skipped, [.badBody m.signature]⟩
    | some body =>
      let r := buildMethod o.labelling o.policy c m body g
      match r.report with
      | .ok report => ⟨r.graph, .built report, r.events⟩
      | .error e => ⟨r.graph, .skipped, r.events ++ [.skipped m.signature e]⟩

/-- All methods in one graph, one after the other. -/
def runShared (o : BuildOptions) (r : BuildResult) (tasks : List Task) : BuildResult :=
  tasks.foldl (fun r t =>
    let result := runTask o r.graph t
    r.add result.graph result) r

def mergeTask (o : BuildOptions) (r : BuildResult) (t : Task) : Except MergeError BuildResult :=
  let result := runTask o .empty t
  match r.graph.absorb result.graph with
  | .error e => .error ⟨t.2.signature, e⟩
  | .ok (g, _) => .ok (r.add g result)

/-- Every method in its own graph, absorbed in order. -/
def runApart (o : BuildOptions) (r : BuildResult) (tasks : List Task) :
    Except MergeError BuildResult :=
  tasks.foldlM (mergeTask o) r

def exclusion? (o : BuildOptions) (c : Class) : Option Event :=
  (excludedBy? o.excluded c.package c.name).map fun pattern => .excluded c.name pattern

def tasksOf (o : BuildOptions) (classes : List Class) : List Task :=
  (classes.filter fun c => (exclusion? o c).isNone).flatMap fun c => c.methods.map fun m => (c, m)

def entryNodes (tasks : List Task) : Graph :=
  tasks.foldl (fun g (c, m) => (g.intern (.entry c m)).1) .empty

/-- Entry nodes for all methods come first. -/
def opening (o : BuildOptions) (classes : List Class) : BuildResult :=
  let events := classes.filterMap (exclusion? o)
  ⟨entryNodes (tasksOf o classes),
    { classes := classes.length, classesExcluded := events.length }, events⟩

def build (o : BuildOptions) (classes : List Class) : Except MergeError BuildResult :=
  let tasks := tasksOf o classes
  if 1 < o.jobs then runApart o (opening o classes) tasks
  else .ok (runShared o (opening o classes) tasks)

end Project
end ProgramDependence
