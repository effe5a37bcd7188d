import ProgramDependence.Proofs.Flow.BasicBlocks
import ProgramDependence.Proofs.Method.Links

/-! Flow edges follow the instructions. Only the last instruction of a block is looked at when they
are drawn, and that is enough: a step of control that stays inside its block goes from an instruction
to the one after it. -/
namespace ProgramDependence

theorem Body.Analyzed.isBasic {policy : Policy} {b : Body} {a : Analysis}
    (known : Analyzed policy b a) : Partition.IsBasic a.flow a.partition := by
  rw [known.partition]
  exact Body.isBasic known.flow policy

theorem Digraph.mem_heads {g : Digraph} {k : Nat} :
    k ∈ g.heads ↔ k < g.size ∧ ¬∃ x, k ∈ g.succs x := by
  simp only [heads, List.mem_filter, List.mem_range, List.isEmpty_iff,
    List.eq_nil_iff_forall_not_mem, mem_preds, not_exists]

theorem controlTag_ne_flowTag : controlTag ≠ flowTag := by decide

namespace Frame

variable {labelling : Labelling} {policy : Policy} {c : Class} {m : Method} {b : Body} {a : Analysis}
  {l : Link} {k : Nat}

/-- The control flow of a method: from the entry to the first block and to every block whose first
instruction nothing leads to, and along every step of control but those to the next instruction of
the same block. -/
inductive Flows (f : Frame) (b : Body) : Link → Prop where
  | first (nonempty : 0 < b.size) :
      Flows f b ⟨f.entry, f.node (f.analysis.partition.owner 0), flowTag⟩
  | head {k : Nat} {block : Block} (there : f.blocks[k]? = some block)
      (alone : ∀ i, block.first ∉ f.analysis.flow.succs i) :
      Flows f b ⟨f.entry, f.node k, flowTag⟩
  | step {i j : Nat} (edge : j ∈ f.analysis.flow.succs i)
      (leaves : ¬(f.analysis.partition.owner i = f.analysis.partition.owner j ∧ j = i + 1)) :
      Flows f b ⟨f.node (f.analysis.partition.owner i), f.node (f.analysis.partition.owner j),
        flowTag⟩

theorem mem_range_take_one (known : Body.Analyzed policy b a) :
    k ∈ (List.range a.partition.graph.size).take 1 ↔ 0 < b.size ∧ k = a.partition.owner 0 := by
  rw [List.take_range, List.mem_range, Nat.lt_min, known.graph_size, known.blocks_nonempty.symm]
  constructor
  · rintro ⟨zero, some⟩
    obtain rfl : k = 0 := by omega
    exact ⟨some, (known.tiles.owner_start (known.blocks_nonempty.mp some)).symm⟩
  · rintro ⟨some, rfl⟩
    have zero : a.partition.owner 0 = 0 := known.tiles.owner_start (known.blocks_nonempty.mp some)
    rw [zero]
    exact ⟨Nat.one_pos, some⟩

theorem mem_graph_heads (known : Body.Analyzed policy b a) : k ∈ a.partition.graph.heads ↔
    ∃ block, a.blocks[k]? = some block ∧ ∀ i, block.first ∉ a.flow.succs i := by
  rw [Digraph.mem_heads, known.graph_size]
  constructor
  · rintro ⟨bound, alone⟩
    have there := List.getElem?_eq_getElem bound
    refine ⟨_, there, fun i edge => alone ?_⟩
    exact (known.isBasic.entered_iff there).mpr ⟨i, edge⟩
  · rintro ⟨block, there, alone⟩
    refine ⟨(List.getElem?_eq_some_iff.mp there).1, fun entered => ?_⟩
    obtain ⟨i, edge⟩ := (known.isBasic.entered_iff there).mp entered
    exact alone i edge

theorem mem_flowLinks (known : Body.Analyzed policy b a) :
    l ∈ (ofAnalysis labelling c m a).flowLinks ↔ (ofAnalysis labelling c m a).Flows b l := by
  have same : (ofAnalysis labelling c m a).analysis = a := rfl
  simp only [flowLinks, List.mem_map, flowArcs, same, List.mem_append, List.mem_flatMap, List.mem_range]
  constructor
  · rintro ⟨arc, ⟨k, first | head, rfl⟩ | ⟨x, _, s, edge, rfl⟩, rfl⟩
    · obtain ⟨some, rfl⟩ := (mem_range_take_one known).mp first
      exact .first some
    · obtain ⟨block, there, alone⟩ := (mem_graph_heads known).mp head
      exact .head there alone
    · obtain ⟨i, j, link, leaves, rfl, rfl⟩ := known.isBasic.mem_succs_iff.mp edge
      exact .step link leaves
  · intro flows
    cases flows with
    | first some => exact ⟨_, .inl ⟨_, .inl ((mem_range_take_one known).mpr ⟨some, rfl⟩), rfl⟩, rfl⟩
    | head there alone =>
      exact ⟨_, .inl ⟨_, .inr ((mem_graph_heads known).mpr ⟨_, there, alone⟩), rfl⟩, rfl⟩
    | step link leaves =>
      have edge := known.isBasic.mem_succs_iff.mpr ⟨_, _, link, leaves, rfl, rfl⟩
      exact ⟨_, .inr ⟨_, Digraph.lt_of_mem_succs edge, _, edge, rfl⟩, rfl⟩

/-- Of the links of a method, those of control flow. -/
theorem flows_iff (known : Body.Analyzed policy b a) :
    (ofAnalysis labelling c m a).Flows b l ↔
      (l ∈ (ofAnalysis labelling c m a).links ++
          (ofAnalysis labelling c m a).data) ∧ l.tag = flowTag := by
  rw [← mem_flowLinks known, links]
  constructor
  · intro flow
    refine ⟨?_, flowLinks_tag flow⟩
    exact List.mem_append_left _ (List.mem_append_left _ (List.mem_append_right _ flow))
  · rintro ⟨member, tag⟩
    rcases List.mem_append.mp member with drawn | data
    · rcases List.mem_append.mp drawn with early | control
      · rcases List.mem_append.mp early with constant | flow
        · obtain ⟨_, k, _, ty, _, _, rfl | rfl⟩ := (mem_allConstantLinks known).mp constant
          · exact absurd tag controlTag_ne_flowTag
          · exact absurd tag (dataTag_ne ty k).1
        · exact flow
      · exact absurd ((drawnControls_tag control).symm.trans tag) controlTag_ne_flowTag
    · obtain ⟨ty, k, same⟩ := data_tag data
      exact absurd (same.symm.trans tag) (dataTag_ne ty k).1

end Frame

/-- Built alone, a method whose branches stay inside it has as flow edges exactly the steps of control
between its blocks, and those from its entry. -/
theorem flow_edge_iff_flows (labelling : Labelling) (policy : Policy) (c : Class) (m : Method)
    (b : Body) (inRange : b.InRange) :
    let r := buildMethod labelling policy c m b .empty
    ∃ a report, b.analyze policy = .ok a ∧ r.report = .ok report ∧
      ∀ e, (e ∈ r.graph.edges ∧ e.tag = flowTag) ↔
        ∃ l, (Frame.ofAnalysis labelling c m a).Flows b l ∧
          r.graph.idOf? l.source = some e.source ∧ r.graph.idOf? l.target = some e.target ∧
          l.tag = e.tag := by
  intro r
  obtain ⟨a, analyzed⟩ := Body.analyze_of_inRange policy inRange
  obtain ⟨n, report, plain, shown⟩ := buildMethod_empty labelling policy c m analyzed
  refine ⟨a, _, analyzed, report, ?_⟩
  apply plain.mem_edges_tagged shown (· = flowTag)
  intro l
  exact Frame.flows_iff (Body.analyzed analyzed)

/-- A loop back to the first instruction by a switch with a target that comes twice, a call inside
straight code, and code that nothing leads to and that runs off the end. -/
def restless : Body where
  locals := [⟨"n", "int"⟩]
  code := [
    ⟨.assign (.localVar "n") (.constant "int" "1"), .zero⟩,
    ⟨.assign (.localVar "n") (.staticCall "p.C" "f" [] "int" []), .zero⟩,
    ⟨.switch (.localVar "n") [3, 3, 0] 4, .zero⟩,
    ⟨.nop, .zero⟩,
    ⟨.ret none, .zero⟩,
    ⟨.assign (.localVar "n") (.constant "int" "2"), .zero⟩,
    ⟨.nop, .zero⟩]

theorem restless_flow_edges : restless.InRange ∧
    let r := buildMethod .trees .expanded ⟨"p", "p.C", "C.java", []⟩ ⟨"m", "m()", 1, 2, none⟩
      restless .empty
    let drawn : List Edge := [(0, 1), (0, 7), (1, 3), (3, 4), (4, 1), (4, 5), (4, 6), (5, 6)].map
      fun p => ⟨p.1, p.2, flowTag⟩
    ∃ a report, restless.analyze .expanded = .ok a ∧ r.report = .ok report ∧
      r.graph.edges.filter (fun e => e.tag = flowTag) = drawn ∧
      ∀ e, e ∈ drawn ↔
        ∃ l, (Frame.ofAnalysis .trees ⟨"p", "p.C", "C.java", []⟩ ⟨"m", "m()", 1, 2, none⟩ a).Flows
            restless l ∧
          r.graph.idOf? l.source = some e.source ∧ r.graph.idOf? l.target = some e.target ∧
          l.tag = e.tag := by
  have inRange : restless.InRange := by decide
  have drawn : (buildMethod .trees .expanded ⟨"p", "p.C", "C.java", []⟩ ⟨"m", "m()", 1, 2, none⟩
        restless .empty).graph.edges.filter (fun e => e.tag = flowTag) =
      [(0, 1), (0, 7), (1, 3), (3, 4), (4, 1), (4, 5), (4, 6), (5, 6)].map
        fun p => ⟨p.1, p.2, flowTag⟩ := by
    decide +kernel
  obtain ⟨a, report, analyzed, built, edges⟩ :=
    flow_edge_iff_flows .trees .expanded ⟨"p", "p.C", "C.java", []⟩ ⟨"m", "m()", 1, 2, none⟩
      restless inRange
  refine ⟨inRange, a, report, analyzed, built, drawn, fun e => ?_⟩
  exact (Graph.mem_filter_tag (· = flowTag) drawn e).trans (edges e)

end ProgramDependence
