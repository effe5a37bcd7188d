import ProgramDependence.Flow.Partition
import ProgramDependence.Labelling.Block
import ProgramDependence.Text.Lines

/-! The arguments of a run. An option's value is looked at when the next option is taken or at
the end, so an argument that cannot be placed at all is reported before a bad value. -/
namespace ProgramDependence

structure Options where
  input : String
  classpath : List String
  output : Option String
  excluded : List String
  labelling : Labelling
  policy : Policy
  jobs : Nat
  verify : Bool
  slice : Option String
  quiet : Bool
  timing : Bool
  deriving DecidableEq, Repr

/-- Why arguments do not make a run. -/
inductive UsageError where
  | unknownArgument
  | unusableValue
  | repeated
  | valueForFlag
  | badNumber
  | noInput
  | helpWanted
  | versionWanted
  deriving DecidableEq, Repr

namespace Options

/-- Options that take a value. -/
inductive Key where
  | input | classpath | output | exclude | labelType | blocks | jobs | slice
  deriving DecidableEq, Repr

inductive Flag where
  | verify | quiet | timing
  deriving DecidableEq, Repr

inductive Name where
  | key (k : Key)
  | flag (f : Flag)
  | help
  | version
  deriving DecidableEq, Repr

def Name.ofLong? : String → Option Name
  | "input" => some (.key .input)
  | "classpath" => some (.key .classpath)
  | "output" => some (.key .output)
  | "exclude" => some (.key .exclude)
  | "label-type" => some (.key .labelType)
  | "blocks" => some (.key .blocks)
  | "jobs" => some (.key .jobs)
  | "slice" => some (.key .slice)
  | "verify" => some (.flag .verify)
  | "quiet" => some (.flag .quiet)
  | "timing" => some (.flag .timing)
  | "help" => some .help
  | "version" => some .version
  | _ => none

def Name.ofShort? : Char → Option Name
  | 'h' => some .help
  | 'V' => some .version
  | _ => none

inductive Argument where
  | long (name : String) (value : Option String)
  | short (name : Char)
  | plain (text : String)
  deriving DecidableEq, Repr

/-- A dash alone is plain, and only the first letter after a single dash counts. -/
def Argument.ofString (arg : String) : Argument :=
  match arg.toList with
  | '-' :: '-' :: rest =>
    match Text.cutAt '=' rest with
    | none => .long (String.ofList rest) none
    | some (name, value) => .long (String.ofList name) (some (String.ofList value))
  | '-' :: c :: _ => .short c
  | _ => .plain arg

/-! ### Values -/

def labellingOf? : String → Option Labelling
  | "instruction" => some .listing
  | "expression-tree" => some .trees
  | "operator" => some .operators
  | _ => none

def policyOf? : String → Option Policy
  | "unit" => some .unit
  | "expanded" => some .expanded
  | _ => none

def digits? : List Char → Option Nat
  | [] => none
  | cs => if cs.all Char.isDigit then some (cs.foldl (fun n c => n * 10 + (c.toNat - 48)) 0) else none

/-- A decimal number of 64 bits, with or without a plus sign. -/
def count? (text : String) : Option Nat :=
  let number := match text.toList with
    | '+' :: cs => digits? cs
    | cs => digits? cs
  number.filter fun n => n < UInt64.size

/-! ### Collecting -/

/-- What has been given so far. -/
structure Draft where
  input : Option String := none
  classpath : List String := []
  output : Option String := none
  excluded : List String := []
  labelling : Option Labelling := none
  policy : Option Policy := none
  jobs : Option Nat := none
  verify : Bool := false
  slice : Option String := none
  quiet : Bool := false
  timing : Bool := false

namespace Draft

/-- The value of an option that may be given once. -/
def once (given : Option α) (value : Except UsageError α) : Except UsageError (Option α) :=
  if given.isSome then .error .repeated else value.map some

def path (value : String) : Except UsageError String :=
  if value = "" then .error .unusableValue else .ok value

def orUnusable : Option α → Except UsageError α
  | some x => .ok x
  | none => .error .unusableValue

def orBadNumber : Option α → Except UsageError α
  | some x => .ok x
  | none => .error .badNumber

def set (d : Draft) (k : Key) (value : String) : Except UsageError Draft :=
  match k with
  | .input => (once d.input (path value)).map fun v => { d with input := v }
  | .classpath => (path value).map fun v => { d with classpath := d.classpath ++ [v] }
  | .output => (once d.output (path value)).map fun v => { d with output := v }
  | .exclude => .ok { d with excluded := d.excluded ++ [value] }
  | .labelType =>
    (once d.labelling (orUnusable (labellingOf? value))).map fun v => { d with labelling := v }
  | .blocks => (once d.policy (orUnusable (policyOf? value))).map fun v => { d with policy := v }
  | .jobs => (once d.jobs (orBadNumber (count? value))).map fun v => { d with jobs := v }
  | .slice => (once d.slice (.ok value)).map fun v => { d with slice := v }

def raise (d : Draft) : Flag → Except UsageError Draft
  | .verify => if d.verify then .error .repeated else .ok { d with verify := true }
  | .quiet => if d.quiet then .error .repeated else .ok { d with quiet := true }
  | .timing => if d.timing then .error .repeated else .ok { d with timing := true }

/-- Only the input has no default. -/
def finish (d : Draft) : Except UsageError Options :=
  match d.input with
  | none => .error .noInput
  | some input => .ok {
      input
      classpath := d.classpath
      output := d.output
      excluded := d.excluded
      labelling := d.labelling.getD .trees
      policy := d.policy.getD .expanded
      jobs := d.jobs.getD 1
      verify := d.verify
      slice := d.slice
      quiet := d.quiet
      timing := d.timing }

end Draft

/-- An option that was taken but not looked at yet, with its value if one followed. -/
structure Pending where
  key : Key
  value : Option String

structure State where
  draft : Draft := {}
  pending : Option Pending := none

/-- Looks at the pending option. -/
def State.settle (s : State) : Except UsageError Draft :=
  match s.pending with
  | none => .ok s.draft
  | some ⟨_, none⟩ => .error .unusableValue
  | some ⟨key, some value⟩ => s.draft.set key value

/-- Takes an option or flag that stands without a value. -/
def State.takeName (s : State) (name : Name) : Except UsageError State := do
  let draft ← s.settle
  match name with
  | .key k => .ok ⟨draft, some ⟨k, none⟩⟩
  | .flag f => .ok ⟨← draft.raise f, none⟩
  | .help => .error .helpWanted
  | .version => .error .versionWanted

/-- Takes an option whose value is attached; a flag has none. -/
def State.takeAttached (s : State) (name : Name) (value : String) : Except UsageError State :=
  match name with
  | .key k => do
    let draft ← s.settle
    .ok ⟨← draft.set k value, none⟩
  | .flag _ | .help | .version => .error .valueForFlag

/-- A plain argument is the value of the option before it, or nothing. -/
def State.takePlain (s : State) (text : String) : Except UsageError State :=
  match s.pending with
  | some ⟨key, none⟩ => .ok { s with pending := some ⟨key, some text⟩ }
  | some ⟨_, some _⟩ | none => .error .unknownArgument

def State.take (s : State) : Argument → Except UsageError State
  | .plain text => s.takePlain text
  | .short c =>
    match Name.ofShort? c with
    | none => .error .unknownArgument
    | some name => s.takeName name
  | .long text value =>
    match Name.ofLong? text, value with
    | none, _ => .error .unknownArgument
    | some name, none => s.takeName name
    | some name, some value => s.takeAttached name value

/-- Two dashes alone end the options, and nothing may follow that end. -/
def State.takeAll (s : State) : List String → Except UsageError State
  | [] => .ok s
  | arg :: rest =>
    if arg = "--" then if rest.isEmpty then .ok s else .error .unknownArgument
    else
      match s.take (.ofString arg) with
      | .error e => .error e
      | .ok s => s.takeAll rest

def parse (args : List String) : Except UsageError Options := do
  let s ← State.takeAll {} args
  let draft ← s.settle
  draft.finish

end Options
end ProgramDependence
