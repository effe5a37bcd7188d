/-! What came of building one method, and of a whole run. -/
namespace ProgramDependence

structure Report where
  blocks : Nat
  /-- Data dependences that were not in the graph before. -/
  dataEdges : Nat
  /-- No block reaches an exit, so there are no control dependences at all. -/
  controlAbandoned : Bool
  /-- Blocks without control dependences because they reach no exit. -/
  blocksDropped : Nat
  skippedEdges : Nat
  deriving DecidableEq, Repr

/-- The report that building starts with. -/
def Report.none : Report := ⟨0, 0, false, 0, 0⟩

inductive Outcome where
  | built (report : Report)
  | noBody
  | skipped
  deriving DecidableEq, Repr

structure Summary where
  classes : Nat := 0
  classesExcluded : Nat := 0
  methodsBuilt : Nat := 0
  methodsSkipped : Nat := 0
  methodsWithoutBody : Nat := 0
  dataEdges : Nat := 0
  controlAbandoned : Nat := 0
  blocksDropped : Nat := 0
  edgesSkipped : Nat := 0
  deriving DecidableEq, Repr

def Summary.record (s : Summary) : Outcome → Summary
  | .built r => { s with
      methodsBuilt := s.methodsBuilt + 1
      dataEdges := s.dataEdges + r.dataEdges
      controlAbandoned := s.controlAbandoned + r.controlAbandoned.toNat
      blocksDropped := s.blocksDropped + r.blocksDropped
      edgesSkipped := s.edgesSkipped + r.skippedEdges }
  | .noBody => { s with methodsWithoutBody := s.methodsWithoutBody + 1 }
  | .skipped => { s with methodsSkipped := s.methodsSkipped + 1 }

end ProgramDependence
