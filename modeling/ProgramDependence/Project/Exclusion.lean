import ProgramDependence.Code.Class

/-! Patterns that keep classes out of a run. -/
namespace ProgramDependence

/-- A pattern in its three forms: a package prefix, a package suffix that may also stand anywhere
in the class name, and a part of either. -/
inductive Pattern where
  | start (package : List Char)
  | ending (part : List Char)
  | within (part : List Char)
  deriving DecidableEq, Repr

namespace Pattern

/-- A star in front leaves the start open, and a second one at the end leaves the end open. -/
def ofString (s : String) : Pattern :=
  match s.toList with
  | '*' :: rest => if rest.getLast? = some '*' then .within rest.dropLast else .ending rest
  | cs => .start cs

def isPart (part : List Char) : List Char → Bool
  | [] => part.isEmpty
  | c :: cs => part.isPrefixOf (c :: cs) || isPart part cs

def matchesClass (package name : String) : Pattern → Bool
  | .start p => p.isPrefixOf package.toList
  | .ending p => p.isSuffixOf package.toList || isPart p name.toList
  | .within p => isPart p package.toList || isPart p name.toList

end Pattern

/-- The first pattern that keeps a class out. -/
def excludedBy? (patterns : List String) (package name : String) : Option String :=
  patterns.find? fun p => (Pattern.ofString p).matchesClass package name

end ProgramDependence
