import ProgramDependence.Flow.Partition
import ProgramDependence.Locals.Liveness
import ProgramDependence.Locals.Table

/-! All that is known of a body before its graph is drawn. -/
namespace ProgramDependence

structure Analysis where
  body : Body
  flow : Digraph
  partition : Partition
  locals : Locals
  access : Access
  liveness : Liveness

def Body.analyze (policy : Policy) (b : Body) : Except BadTarget Analysis :=
  match b.flow? with
  | .error e => .error e
  | .ok flow =>
    let locals := Locals.collect b
    let access := Access.compute b locals
    .ok {
      body := b
      flow
      partition := .compute policy b.stmts flow
      locals
      access
      liveness := .compute flow access }

namespace Analysis

def blocks (a : Analysis) : List Block := a.partition.blocks

/-- The instructions of a block in order. -/
def codeOf (a : Analysis) (b : Block) : List Instruction :=
  b.instructions.filterMap fun i => a.body.code[i]?

def stmtsOf (a : Analysis) (b : Block) : List Stmt := (a.codeOf b).map (·.stmt)

def liveAfter (a : Analysis) (b : Block) : List Nat := a.liveness.after b.last

end Analysis
end ProgramDependence
