import ProgramDependence.Code.Body

/-! The locals of a body, numbered: declared ones in order of declaration, then those that are
only mentioned, in order of mention. -/
namespace ProgramDependence

structure Locals where
  entries : List LocalDecl
  deriving DecidableEq, Repr

namespace Locals

def unknownType : String := "unknown"

/-- The first entry for a name counts. -/
def add (ls : Locals) (d : LocalDecl) : Locals :=
  if ls.entries.any fun e => e.name = d.name then ls else ⟨ls.entries ++ [d]⟩

/-- The locals a statement mentions, the one it defines first. -/
def mentions (s : Stmt) : List LocalDecl :=
  (s.definedLocal?.toList ++ s.usedLocals).map fun name => ⟨name, unknownType⟩

def collect (b : Body) : Locals :=
  (b.locals ++ b.code.flatMap fun i => mentions i.stmt).foldl add ⟨[]⟩

def count (ls : Locals) : Nat := ls.entries.length

def id? (ls : Locals) (name : String) : Option Nat := ls.entries.findIdx? fun e => e.name = name

def nameOf (ls : Locals) (id : Nat) : String := (ls.entries[id]?.map (·.name)).getD ""

def typeOf (ls : Locals) (id : Nat) : String := (ls.entries[id]?.map (·.ty)).getD unknownType

end Locals

/-- Per instruction, the local it writes and the locals it reads, by number. -/
structure Access where
  defs : List (Option Nat)
  uses : List (List Nat)
  deriving DecidableEq, Repr

namespace Access

def compute (b : Body) (ls : Locals) : Access where
  defs := b.code.map fun i => i.stmt.definedLocal?.bind ls.id?
  uses := b.code.map fun i => (i.stmt.usedLocals.filterMap ls.id?).eraseDups

def def? (a : Access) (i : Nat) : Option Nat := a.defs.getD i none

def usesAt (a : Access) (i : Nat) : List Nat := a.uses.getD i []

end Access
end ProgramDependence
