/-! Ordered trees and their one-line form: each node as its number of children, a colon and its
label, depth first, with commas between. -/
namespace ProgramDependence

inductive Tree where
  | node (label : String) (kids : List Tree)

namespace Tree

def leaf (label : String) : Tree := .node label []

mutual

def render : Tree → String
  | .node label kids => s!"{kids.length}:" ++ label ++ renderKids kids

def renderKids : List Tree → String
  | [] => ""
  | kid :: kids => "," ++ kid.render ++ renderKids kids

end

end Tree
end ProgramDependence
