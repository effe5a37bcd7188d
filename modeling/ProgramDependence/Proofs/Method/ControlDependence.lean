import ProgramDependence.Proofs.Method.Links
import ProgramDependence.Proofs.PostDominance.Frontier

/-! Control dependences are exactly what ways out of the block graph say: a block depends on the
blocks that govern it, and on the entry if no other block does. Blocks without a way out depend on
nothing, and hoisted constants on the entry. -/
namespace ProgramDependence

/-! ### Nodes -/

theorem Analysis.kindOf_ne (stmts : List Stmt) :
    (kindOf stmts).name ≠ NodeKind.entry.name ∧ (kindOf stmts).name ≠ NodeKind.constant.name := by
  unfold kindOf
  split
  all_goals try decide
  split <;> decide

namespace Frame

variable {labelling : Labelling} {policy : Policy} {c : Class} {m : Method} {b : Body} {a : Analysis}
  {l : Link} {x y : Nat}

/-- Neither the entry nor a block looks like a constant. -/
theorem constantNode_ne {node : Identity} {f : Frame} {instruction : Instruction} {ty text : String}
    (member : node ∈ (ofAnalysis labelling c m a).entry :: (ofAnalysis labelling c m a).nodes) :
    f.constantNode instruction ty text ≠ node := by
  have kind : node.kind ≠ NodeKind.constant.name := by
    rcases List.mem_cons.mp member with rfl | block
    · change NodeKind.entry.name ≠ NodeKind.constant.name
      decide
    · obtain ⟨block, _, rfl⟩ := List.mem_map.mp block
      exact (Analysis.kindOf_ne _).2
  rintro rfl
  exact kind rfl

/-! ### Links -/

/-- The control dependences of a method. -/
inductive Controls (f : Frame) (b : Body) : Link → Prop where
  | block {x y : Nat} (free : ¬f.analysis.partition.graph.Stuck y)
      (governs : f.analysis.partition.graph.Governs x y) :
      Controls f b ⟨f.node x, f.node y, controlTag⟩
  | entry {y : Nat} (free : ¬f.analysis.partition.graph.Stuck y)
      (alone : ∀ x, f.analysis.partition.graph.Governs x y → x = y) :
      Controls f b ⟨f.entry, f.node y, controlTag⟩
  | constant {i k : Nat} {instruction : Instruction} {ty text : String} (trees : f.labelling = .trees)
      (there : b.code[i]? = some instruction)
      (operand : instruction.stmt.operands[k]? = some (.constant ty text)) :
      Controls f b ⟨f.entry, f.constantNode instruction ty text, controlTag⟩

/-- The control dependences of one block. -/
def ControlsBlock (f : Frame) (y : Nat) (l : Link) : Prop :=
  (∃ x, f.analysis.partition.graph.Governs x y ∧ l = ⟨f.node x, f.node y, controlTag⟩) ∨
    ((∀ x, f.analysis.partition.graph.Governs x y → x = y) ∧
      l = ⟨f.entry, f.node y, controlTag⟩)

theorem mem_exiting {f : Frame} {frontiers : Frontiers}
    (sized : f.analysis.partition.graph.size = f.blocks.length)
    (known : frontiers.Exact f.analysis.partition.graph) :
    y ∈ f.exiting frontiers ↔ ¬f.analysis.partition.graph.Stuck y := by
  simp only [exiting, List.mem_filter, List.mem_range, Bool.not_eq_true', List.contains_eq_mem,
    decide_eq_false_iff_not, known.mem_stuck, ← sized, not_and]
  constructor
  · rintro ⟨bound, free⟩
    exact free bound
  · intro free
    exact ⟨Digraph.lt_of_not_stuck free, fun _ => free⟩

theorem mem_controlArcs {f : Frame} {frontiers : Frontiers}
    (sized : f.analysis.partition.graph.size = f.blocks.length)
    (known : frontiers.Exact f.analysis.partition.graph) :
    l ∈ (f.controlArcs frontiers).map f.linkOf ↔
      ∃ y, ¬f.analysis.partition.graph.Stuck y ∧ f.ControlsBlock y l := by
  simp only [controlArcs, List.mem_map, List.mem_append, List.mem_flatMap, List.mem_filter,
    List.all_eq_true, decide_eq_true_eq, mem_exiting sized known]
  constructor
  · rintro ⟨arc, ⟨y, free, x, governs, rfl⟩ | ⟨y, ⟨free, alone⟩, rfl⟩, rfl⟩
    · exact ⟨y, free, .inl ⟨x, (known.mem_frontier x y free).mp governs, rfl⟩⟩
    · refine ⟨y, free, .inr ⟨fun x governs => alone x ?_, rfl⟩⟩
      exact (known.mem_frontier x y free).mpr governs
  · rintro ⟨y, free, ⟨x, governs, rfl⟩ | ⟨alone, rfl⟩⟩
    · exact ⟨_, .inl ⟨y, free, x, (known.mem_frontier x y free).mpr governs, rfl⟩, rfl⟩
    · refine ⟨_, .inr ⟨y, ⟨free, fun x governs => alone x ?_⟩, rfl⟩, rfl⟩
      exact (known.mem_frontier x y free).mp governs

theorem mem_drawnControls (known : Body.Analyzed policy b a) :
    l ∈ (ofAnalysis labelling c m a).drawnControls ↔
      ∃ y, ¬a.partition.graph.Stuck y ∧ (ofAnalysis labelling c m a).ControlsBlock y l := by
  have same : (ofAnalysis labelling c m a).analysis = a := rfl
  unfold drawnControls
  rw [same]
  rcases Frontiers.compute_cases known.graph_closed with
    ⟨⟨_, stuck⟩, failed⟩ | ⟨_, frontiers, found, frontiersExact⟩
  · rw [failed]
    simp only [List.not_mem_nil, false_iff]
    rintro ⟨y, free, _⟩
    exact free (stuck y (Digraph.lt_of_not_stuck free))
  · rw [found]
    exact mem_controlArcs known.graph_size frontiersExact

/-- No block has a way out of the method. -/
def NoExit (f : Frame) (b : Body) : Prop :=
  0 < b.size ∧ ∀ y < f.blocks.length, f.analysis.partition.graph.Stuck y

theorem noExit_iff (known : Body.Analyzed policy b a) :
    (ofAnalysis labelling c m a).NoExit b ↔
      0 < a.partition.graph.size ∧ ∀ y < a.partition.graph.size, a.partition.graph.Stuck y := by
  have blocks : (ofAnalysis labelling c m a).blocks = a.blocks := rfl
  rw [NoExit, known.graph_size, known.blocks_nonempty, blocks]
  rfl

/-- Of the links of a method, those of control. -/
theorem controls_iff (known : Body.Analyzed policy b a) :
    (ofAnalysis labelling c m a).Controls b l ↔
      (l ∈ (ofAnalysis labelling c m a).links ++
          (ofAnalysis labelling c m a).data) ∧ l.tag = controlTag := by
  rw [links, List.mem_append, List.mem_append, List.mem_append, mem_drawnControls known,
    mem_allConstantLinks known]
  constructor
  · intro controls
    cases controls with
    | @block x y free governs => exact ⟨.inl (.inr ⟨y, free, .inl ⟨x, governs, rfl⟩⟩), rfl⟩
    | @entry y free alone => exact ⟨.inl (.inr ⟨y, free, .inr ⟨alone, rfl⟩⟩), rfl⟩
    | @constant i k instruction ty text trees there operand =>
      refine ⟨.inl (.inl (.inl ⟨i, k, instruction, ty, text, ⟨trees, ?_, operand⟩, .inl rfl⟩)), rfl⟩
      exact known.body.symm ▸ there
  · rintro ⟨((constant | flow) | control) | data, tag⟩
    · obtain ⟨i, k, instruction, ty, text, ⟨trees, there, operand⟩, rfl | rfl⟩ := constant
      · have inBody : b.code[i]? = some instruction := known.body ▸ there
        exact .constant trees inBody operand
      · exact absurd tag (dataTag_ne ty k).2
    · exact absurd ((flowLinks_tag flow).symm.trans tag) (by decide)
    · obtain ⟨y, free, ⟨x, governs, rfl⟩ | ⟨alone, rfl⟩⟩ := control
      · exact .block free governs
      · exact .entry free alone
    · obtain ⟨ty, k, same⟩ := data_tag data
      exact absurd (same.symm.trans tag) (dataTag_ne ty k).2

theorem control_losses (labelling : Labelling) (c : Class) (m : Method)
    (known : Body.Analyzed policy b a) :
    ((ofAnalysis labelling c m a).NoExit b → (ofAnalysis labelling c m a).controlAbandoned = true) ∧
      (¬(ofAnalysis labelling c m a).NoExit b →
        (ofAnalysis labelling c m a).controlAbandoned = false ∧
          ∃ stuck : List Nat, stuck.Nodup ∧
            (∀ y, y ∈ stuck ↔ y < a.blocks.length ∧ a.partition.graph.Stuck y) ∧
            (ofAnalysis labelling c m a).blocksDropped = stuck.length) := by
  have same : (ofAnalysis labelling c m a).analysis = a := rfl
  rw [noExit_iff known]
  simp only [controlAbandoned, blocksDropped, same]
  rcases Frontiers.compute_cases known.graph_closed with
    ⟨none, failed⟩ | ⟨some, frontiers, found, frontiersExact⟩
  · rw [failed]
    exact ⟨fun _ => rfl, fun exits => absurd none exits⟩
  · rw [found]
    refine ⟨fun none => absurd none some, fun _ => ⟨rfl, frontiers.stuck, frontiersExact.nodup, ?_, rfl⟩⟩
    intro y
    rw [← known.graph_size]
    exact frontiersExact.mem_stuck y

end Frame

/-- Built alone, a method whose branches stay inside it has as control edges exactly its control
dependences. If no block reaches an exit they are abandoned, and none leads to the entry or to
a block; else the blocks that reach no exit are counted as dropped. -/
theorem control_edge_iff_controls (labelling : Labelling) (policy : Policy) (c : Class) (m : Method)
    (b : Body) (inRange : b.InRange) :
    let r := buildMethod labelling policy c m b .empty
    ∃ a report, b.analyze policy = .ok a ∧ r.report = .ok report ∧
      let f := Frame.ofAnalysis labelling c m a
      (f.NoExit b → report.controlAbandoned = true ∧
        ∀ e ∈ r.graph.edges, e.tag = controlTag →
          ∀ node ∈ f.entry :: f.nodes, r.graph.idOf? node ≠ some e.target) ∧
      (¬f.NoExit b → report.controlAbandoned = false ∧
        ∃ stuck : List Nat, stuck.Nodup ∧
          (∀ y, y ∈ stuck ↔ y < a.blocks.length ∧ a.partition.graph.Stuck y) ∧
          report.blocksDropped = stuck.length) ∧
      ∀ e, (e ∈ r.graph.edges ∧ e.tag = controlTag) ↔
        ∃ l, f.Controls b l ∧ r.graph.idOf? l.source = some e.source ∧
          r.graph.idOf? l.target = some e.target ∧ l.tag = e.tag := by
  intro r
  obtain ⟨a, analyzed⟩ := Body.analyze_of_inRange policy inRange
  have known := Body.analyzed analyzed
  obtain ⟨n, report, plain, shown⟩ := buildMethod_empty labelling policy c m analyzed
  have edges : ∀ e, (e ∈ r.graph.edges ∧ e.tag = controlTag) ↔
      ∃ l, (Frame.ofAnalysis labelling c m a).Controls b l ∧
        r.graph.idOf? l.source = some e.source ∧ r.graph.idOf? l.target = some e.target ∧
        l.tag = e.tag :=
    plain.mem_edges_tagged shown (· = controlTag) fun l => Frame.controls_iff known
  obtain ⟨abandoned, dropped⟩ := Frame.control_losses labelling c m known
  refine ⟨a, _, analyzed, report, ?_, dropped, edges⟩
  intro noExit
  refine ⟨abandoned noExit, fun e member control node listed same => ?_⟩
  obtain ⟨l, controls, _, target, _⟩ := (edges e).mp ⟨member, control⟩
  have stuck := ((Frame.noExit_iff known).mp noExit).2
  cases controls with
  | @block x y free _ => exact free (stuck y (Digraph.lt_of_not_stuck free))
  | @entry y free _ => exact free (stuck y (Digraph.lt_of_not_stuck free))
  | @constant i k instruction ty text _ _ _ =>
    have equal := Option.some.inj
      ((plain.idOf?_iff.mp target).symm.trans (plain.idOf?_iff.mp same))
    exact Frame.constantNode_ne listed equal

/-- A branch between a return and a loop without a way out. -/
def halfStuck : Body where
  locals := []
  code := [
    ⟨.branch (.binary "<" (.localVar "n") (.constant "int" "0")) 2, .zero⟩,
    ⟨.goto 1, .zero⟩,
    ⟨.ret none, .zero⟩]

theorem halfStuck_control_edges : halfStuck.InRange ∧
    let r := buildMethod .trees .unit ⟨"p", "p.C", "C.java", []⟩ ⟨"m", "m(int)", 1, 2, none⟩
      halfStuck .empty
    ∃ a report, halfStuck.analyze .unit = .ok a ∧ r.report = .ok report ∧
      (report.controlAbandoned, report.blocksDropped) = (false, 1) ∧
      r.graph.edges.filter (fun e => e.tag = controlTag) =
        [⟨0, 1, controlTag⟩, ⟨0, 2, controlTag⟩, ⟨0, 4, controlTag⟩] ∧
      let f := Frame.ofAnalysis .trees ⟨"p", "p.C", "C.java", []⟩ ⟨"m", "m(int)", 1, 2, none⟩ a
      ¬f.NoExit halfStuck ∧
      ∀ e : Edge, e ∈ [⟨0, 1, controlTag⟩, ⟨0, 2, controlTag⟩, ⟨0, 4, controlTag⟩] ↔
        ∃ l, f.Controls halfStuck l ∧ r.graph.idOf? l.source = some e.source ∧
          r.graph.idOf? l.target = some e.target ∧ l.tag = e.tag := by
  have inRange : halfStuck.InRange := by decide
  have computed :
      let r := buildMethod .trees .unit ⟨"p", "p.C", "C.java", []⟩ ⟨"m", "m(int)", 1, 2, none⟩
        halfStuck .empty
      r.graph.edges.filter (fun e => e.tag = controlTag) =
        [⟨0, 1, controlTag⟩, ⟨0, 2, controlTag⟩, ⟨0, 4, controlTag⟩] ∧
      r.report.toOption.map (fun report => (report.controlAbandoned, report.blocksDropped)) =
        some (false, 1) := by
    decide +kernel
  obtain ⟨drawn, reported⟩ := computed
  obtain ⟨a, report, analyzed, built, abandoned, _, edges⟩ :=
    control_edge_iff_controls .trees .unit ⟨"p", "p.C", "C.java", []⟩ ⟨"m", "m(int)", 1, 2, none⟩
      halfStuck inRange
  have counts : (report.controlAbandoned, report.blocksDropped) = (false, 1) := by
    rw [built] at reported
    exact Option.some.inj reported
  refine ⟨inRange, a, report, analyzed, built, counts, drawn, ?_, fun e => ?_⟩
  · intro noExit
    exact Bool.false_ne_true ((congrArg Prod.fst counts).symm.trans (abandoned noExit).1)
  · exact (Graph.mem_filter_tag (· = controlTag) drawn e).trans (edges e)

end ProgramDependence
