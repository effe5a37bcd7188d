import ProgramDependence.Proofs.Locals.Exact
import ProgramDependence.Proofs.Method.Links

/-! Data dependences are exactly the walks from a write to a read of the same local that nothing
between them writes again. The definitions that are asked for are those whose local is live after
their block. None is lost that way: a walk either stays in the block, further down, or goes through
its last instruction. -/
namespace ProgramDependence

/-- The local stands at this place among the operands and at none before it. -/
def Stmt.FirstAt (s : Stmt) (name : String) (k : Nat) : Prop :=
  s.operands[k]? = some (.localVar name) ∧ ∀ j < k, s.operands[j]? ≠ some (.localVar name)

theorem Stmt.operandIndex?_eq_some {s : Stmt} :
    s.operandIndex? name = some k ↔ s.FirstAt name k := by
  simp only [operandIndex?, FirstAt, List.findIdx?_eq_some_iff_getElem, Operand.local?_eq_some,
    decide_eq_true_eq]
  constructor
  · rintro ⟨bound, here, before⟩
    refine ⟨by rw [List.getElem?_eq_getElem bound, here], fun j earlier => ?_⟩
    rw [List.getElem?_eq_getElem (by omega)]
    exact fun same => before j earlier (Option.some.inj same)
  · rintro ⟨here, before⟩
    obtain ⟨bound, same⟩ := List.getElem?_eq_some_iff.mp here
    refine ⟨bound, same, fun j earlier also => before j earlier ?_⟩
    rw [List.getElem?_eq_getElem (by omega), also]

theorem Stmt.exists_firstAt {s : Stmt} (used : Operand.localVar name ∈ s.operands) :
    ∃ k, s.operandIndex? name = some k := by
  refine Option.isSome_iff_exists.mp ?_
  rw [operandIndex?, List.findIdx?_isSome]
  exact List.any_eq_true.mpr ⟨_, used, by simp [Operand.local?]⟩

namespace Body

variable {b : Body} {a : Analysis} {policy : Policy} {name : String} {d u v i : Nat}

/-- What instruction `d` writes to the local may be what instruction `u` reads from it. -/
def Supplies (b : Body) (flow : Digraph) (name : String) (d u : Nat) : Prop :=
  b.Defines d name ∧ b.Reads u name ∧
    ∃ between, flow.Walk d between u ∧ ∀ i ∈ between, ¬b.Defines i name

theorem supplies_iff (found : (Locals.collect b).id? name = some v) {flow : Digraph} :
    b.Supplies flow name d u ↔ (Access.compute b (.collect b)).def? d = some v ∧
      v ∈ (Access.compute b (.collect b)).usesAt u ∧
      flow.Carries (.compute b (.collect b)) v d u := by
  rw [Supplies, Access.def?_iff found, Access.mem_usesAt found, carries_iff found]

/-- A walk out of a block carries on from its last instruction. -/
theorem Analyzed.carries_from_last {access : Access} {block : Block} (known : Analyzed policy b a)
    (there : a.blocks[a.partition.owner d]? = some block) (inside : d ∈ block.instructions)
    (carries : a.flow.Carries access v d u)
    (leaves : ¬(a.partition.owner u = a.partition.owner d ∧ d < u)) :
    a.flow.Carries access v block.last u := by
  obtain ⟨between, walk, clear⟩ := carries
  have member := List.mem_of_getElem? there
  rw [Analysis.blocks, known.partition] at member
  obtain ⟨low, high⟩ := Partition.mem_instructions.mp inside
  rcases walk_leaves known.flow member walk low high with ⟨after, within⟩ | through
  · have same := known.owner_eq there (Partition.mem_instructions.mpr ⟨by omega, within⟩)
    exact absurd ⟨same, after⟩ leaves
  · rcases List.mem_cons.mp through with same | passed
    · rw [same]
      exact ⟨between, walk, clear⟩
    · obtain ⟨earlier, later, split⟩ := List.append_of_mem passed
      refine ⟨later, walk.suffix split, fun i onWay => clear i ?_⟩
      rw [split]
      exact List.mem_append_right _ (List.mem_cons_of_mem _ onWay)

end Body

namespace Frame

variable {labelling : Labelling} {policy : Policy} {c : Class} {m : Method} {b : Body} {a : Analysis}
  {l : Link} {u v k : Nat}

/-- The data dependences of a method: of a read on a write, unless the read stands further down in
the same block, and of a block on a hoisted constant. -/
inductive Feeds (f : Frame) (b : Body) : Link → Prop where
  | value {name : String} {d u k : Nat} {s : Stmt} (supplies : b.Supplies f.analysis.flow name d u)
      (leaves : ¬(f.analysis.partition.owner d = f.analysis.partition.owner u ∧ d < u))
      (there : b.stmts[u]? = some s) (place : s.FirstAt name k) :
      Feeds f b ⟨f.node (f.analysis.partition.owner d), f.node (f.analysis.partition.owner u),
        dataTag (b.typeOf name) k⟩
  | constant {i k : Nat} {instruction : Instruction} {ty text : String} (trees : f.labelling = .trees)
      (there : b.code[i]? = some instruction)
      (operand : instruction.stmt.operands[k]? = some (.constant ty text)) :
      Feeds f b ⟨f.constantNode instruction ty text, f.node (f.analysis.partition.owner i),
        dataTag ty k⟩

theorem mem_found (known : Body.Analyzed policy b a) {x : Except Untagged Arc} :
    x ∈ (ofAnalysis labelling c m a).found ↔
      ∃ v d u, a.access.def? d = some v ∧ v ∈ a.access.usesAt u ∧
        a.flow.Carries a.access v d u ∧
        (ofAnalysis labelling c m a).dataArc (a.partition.owner d) d (u, v) = some x := by
  simp only [found, dataArcs, List.mem_flatMap, List.mem_filterMap, List.mem_filter, Prod.exists,
    List.mk_mem_zipIdx_iff_getElem?, decide_eq_true_eq]
  constructor
  · rintro ⟨block, index, there, w, live, d, ⟨inside, _⟩, u, v, use, link⟩
    obtain ⟨defined, reads, carries⟩ := (Reaching.mem_usesOf known.closed).mp use
    obtain rfl := known.owner_eq there inside
    exact ⟨v, d, u, defined, reads, carries, link⟩
  · rintro ⟨v, d, u, defined, reads, carries, link⟩
    have bound : d < b.size := by
      obtain ⟨_, walk, _⟩ := carries
      rw [← Body.flow_size known.flow]
      exact walk.start_lt
    obtain ⟨block, there, inside⟩ := known.owner_block bound
    have leaves : ¬(a.partition.owner u = a.partition.owner d ∧ d < u) := by
      intro within
      simp [dataArc, ofAnalysis, within] at link
    have live : v ∈ a.liveAfter block := by
      rw [Analysis.liveAfter, known.liveness, Liveness.mem_after known.closed]
      exact ⟨u, reads, known.carries_from_last there inside carries leaves⟩
    have use : (u, v) ∈ (Reaching.compute a.flow a.access).usesOf d :=
      (Reaching.mem_usesOf known.closed).mpr ⟨defined, reads, carries⟩
    exact ⟨block, _, there, v, live, d, ⟨inside, defined⟩, u, v, use, link⟩

theorem dataArc_eq (known : Body.Analyzed policy b a) {name : String} {s : Stmt}
    (named : (Locals.collect b).id? name = some v) (there : b.stmts[u]? = some s)
    (place : s.operandIndex? name = some k) (index d : Nat) :
    (ofAnalysis labelling c m a).dataArc index d (u, v) =
      if a.partition.owner u = index ∧ d < u then none
      else some (.ok ⟨.block index, .block (a.partition.owner u), dataTag (b.typeOf name) k⟩) := by
  have name_eq : a.locals.nameOf v = name := by
    rw [known.locals]
    exact Locals.nameOf_id (Locals.collect_distinct b) named
  have type_eq : a.locals.typeOf v = b.typeOf name := by
    rw [known.locals]
    exact Locals.typeOf_id named
  have here : a.body.stmts[u]?.bind (fun s => s.operandIndex? name) = some k := by
    rw [known.body, there]
    exact place
  by_cases same : a.partition.owner u = index <;>
    simp [dataArc, ofAnalysis, name_eq, type_eq, here, same]

/-- Everything found has a tag, and what is found are the reads. -/
theorem mem_found_iff (known : Body.Analyzed policy b a) {x : Except Untagged Arc} :
    x ∈ (ofAnalysis labelling c m a).found ↔ ∃ name d u k s, b.Supplies a.flow name d u ∧
      ¬(a.partition.owner d = a.partition.owner u ∧ d < u) ∧ b.stmts[u]? = some s ∧
      s.FirstAt name k ∧ x = .ok ⟨.block (a.partition.owner d), .block (a.partition.owner u),
        dataTag (b.typeOf name) k⟩ := by
  rw [mem_found known, known.access]
  constructor
  · rintro ⟨v, d, u, defined, reads, carries, link⟩
    obtain ⟨name, named⟩ := Access.exists_name_of_def? defined
    obtain ⟨s, there, used⟩ := (Access.mem_usesAt named).mp reads
    obtain ⟨k, place⟩ := Stmt.exists_firstAt used
    rw [dataArc_eq known named there place] at link
    split at link
    · cases link
    next leaves =>
      refine ⟨name, d, u, k, s, (Body.supplies_iff named).mpr ⟨defined, reads, carries⟩, ?_, there,
        Stmt.operandIndex?_eq_some.mp place, (Option.some.inj link).symm⟩
      exact fun ⟨same, after⟩ => leaves ⟨same.symm, after⟩
  · rintro ⟨name, d, u, k, s, supplies, leaves, there, place, rfl⟩
    obtain ⟨v, named⟩ := Locals.id?_of_defines supplies.1
    obtain ⟨defined, reads, carries⟩ := (Body.supplies_iff named).mp supplies
    refine ⟨v, d, u, defined, reads, carries, ?_⟩
    rw [dataArc_eq known named there (Stmt.operandIndex?_eq_some.mpr place)]
    exact if_neg fun ⟨same, after⟩ => leaves ⟨same.symm, after⟩

theorem untaggedOf_found (known : Body.Analyzed policy b a) :
    untaggedOf (ofAnalysis labelling c m a).found = [] := by
  refine List.filterMap_eq_nil_iff.mpr fun x member => ?_
  obtain ⟨name, d, u, k, s, _, _, _, _, rfl⟩ := (mem_found_iff known).mp member
  rfl

theorem skippedEdges_eq_zero (known : Body.Analyzed policy b a) :
    (ofAnalysis labelling c m a).skippedEdges = 0 := by
  rw [skippedEdges, untaggedOf_found known, List.length_nil]

theorem mem_data_supplies (known : Body.Analyzed policy b a) :
    l ∈ (ofAnalysis labelling c m a).data ↔ ∃ name d u k s, b.Supplies a.flow name d u ∧
      ¬(a.partition.owner d = a.partition.owner u ∧ d < u) ∧ b.stmts[u]? = some s ∧
      s.FirstAt name k ∧
      l = ⟨(ofAnalysis labelling c m a).node (a.partition.owner d),
        (ofAnalysis labelling c m a).node (a.partition.owner u), dataTag (b.typeOf name) k⟩ := by
  simp only [mem_data_iff, mem_found_iff known, Except.ok.injEq]
  constructor
  · rintro ⟨_, ⟨name, d, u, k, s, supplies, leaves, there, place, rfl⟩, rfl⟩
    exact ⟨name, d, u, k, s, supplies, leaves, there, place, rfl⟩
  · rintro ⟨name, d, u, k, s, supplies, leaves, there, place, rfl⟩
    exact ⟨_, ⟨name, d, u, k, s, supplies, leaves, there, place, rfl⟩, rfl⟩

/-- Of the links of a method, those that are neither flow nor control. -/
theorem feeds_iff (known : Body.Analyzed policy b a) :
    (ofAnalysis labelling c m a).Feeds b l ↔
      (l ∈ (ofAnalysis labelling c m a).links ++
          (ofAnalysis labelling c m a).data) ∧
        l.tag ≠ flowTag ∧ l.tag ≠ controlTag := by
  rw [List.mem_append, mem_data_supplies known]
  constructor
  · intro feeds
    cases feeds with
    | @value name d u k s supplies leaves there place =>
      exact ⟨.inr ⟨name, d, u, k, s, supplies, leaves, there, place, rfl⟩, dataTag_ne _ _⟩
    | @constant i k instruction ty text trees there operand =>
      refine ⟨.inl ?_, dataTag_ne _ _⟩
      refine List.mem_append_left _ (List.mem_append_left _ ((mem_allConstantLinks known).mpr ?_))
      refine ⟨i, k, instruction, ty, text, ⟨trees, ?_, operand⟩, .inr rfl⟩
      exact known.body.symm ▸ there
  · rintro ⟨member, notFlow, notControl⟩
    rcases member with drawn | ⟨name, d, u, k, s, supplies, leaves, there, place, same⟩
    · rw [links] at drawn
      rcases List.mem_append.mp drawn with early | control
      · rcases List.mem_append.mp early with constant | flow
        · obtain ⟨i, k, instruction, ty, text, ⟨trees, there, operand⟩, rfl | rfl⟩ :=
            (mem_allConstantLinks known).mp constant
          · exact absurd rfl notControl
          · refine .constant trees ?_ operand
            exact known.body ▸ there
        · exact absurd (flowLinks_tag flow) notFlow
      · exact absurd (drawnControls_tag control) notControl
    · obtain rfl := same
      exact .value supplies leaves there place

end Frame

/-- Built alone, a method whose branches stay inside it has as edges that are neither flow nor
control exactly its data dependences, and none of those is left without a tag. -/
theorem data_edge_iff_feeds (labelling : Labelling) (policy : Policy) (c : Class) (m : Method)
    (b : Body) (inRange : b.InRange) :
    ∃ a report, b.analyze policy = .ok a ∧
      (buildMethod labelling policy c m b .empty).report = .ok report ∧ report.skippedEdges = 0 ∧
      ∀ e, (e ∈ (buildMethod labelling policy c m b .empty).graph.edges ∧
          e.tag ≠ flowTag ∧ e.tag ≠ controlTag) ↔
        ∃ l, (Frame.ofAnalysis labelling c m a).Feeds b l ∧
          (buildMethod labelling policy c m b .empty).graph.idOf? l.source = some e.source ∧
          (buildMethod labelling policy c m b .empty).graph.idOf? l.target = some e.target ∧
          l.tag = e.tag := by
  obtain ⟨a, analyzed⟩ := Body.analyze_of_inRange policy inRange
  have known := Body.analyzed analyzed
  obtain ⟨n, report, plain, shown⟩ := buildMethod_empty labelling policy c m analyzed
  refine ⟨a, _, analyzed, report, Frame.skippedEdges_eq_zero known, ?_⟩
  exact plain.mem_edges_tagged shown (fun tag => tag ≠ flowTag ∧ tag ≠ controlTag) fun l =>
    Frame.feeds_iff known

/-- A local that is read, written and read again around a loop, by an instruction that may feed
itself. -/
def countingLoop : Body where
  locals := [⟨"n", "int"⟩]
  code := [
    ⟨.identity "n" (.parameter 0 "int"), .zero⟩,
    ⟨.assign (.localVar "n") (.binary "-" (.localVar "n") (.constant "int" "1")), .zero⟩,
    ⟨.branch (.localVar "n") 1, .zero⟩,
    ⟨.ret (some (.localVar "n")), .zero⟩]

theorem countingLoop_data_edges : countingLoop.InRange ∧
    let r := buildMethod .trees .expanded ⟨"p", "p.C", "C.java", []⟩ ⟨"m", "m(int)", 1, 2, none⟩
      countingLoop .empty
    let drawn : List Edge := [⟨1, 2, "int:0"⟩, ⟨2, 2, "int:0"⟩, ⟨2, 4, "int:0"⟩, ⟨3, 2, "int:1"⟩]
    ∃ a report, countingLoop.analyze .expanded = .ok a ∧ r.report = .ok report ∧
      report.skippedEdges = 0 ∧
      r.graph.edges.filter (fun e => e.tag ≠ flowTag ∧ e.tag ≠ controlTag) = drawn ∧
      ∀ e, e ∈ drawn ↔
        ∃ l, (Frame.ofAnalysis .trees ⟨"p", "p.C", "C.java", []⟩ ⟨"m", "m(int)", 1, 2, none⟩ a).Feeds
            countingLoop l ∧
          r.graph.idOf? l.source = some e.source ∧ r.graph.idOf? l.target = some e.target ∧
          l.tag = e.tag := by
  have inRange : countingLoop.InRange := by decide
  have drawn : (buildMethod .trees .expanded ⟨"p", "p.C", "C.java", []⟩
        ⟨"m", "m(int)", 1, 2, none⟩ countingLoop .empty).graph.edges.filter
          (fun e => e.tag ≠ flowTag ∧ e.tag ≠ controlTag) =
      [⟨1, 2, "int:0"⟩, ⟨2, 2, "int:0"⟩, ⟨2, 4, "int:0"⟩, ⟨3, 2, "int:1"⟩] := by
    decide +kernel
  obtain ⟨a, report, analyzed, built, skipped, edges⟩ :=
    data_edge_iff_feeds .trees .expanded ⟨"p", "p.C", "C.java", []⟩ ⟨"m", "m(int)", 1, 2, none⟩
      countingLoop inRange
  refine ⟨inRange, a, report, analyzed, built, skipped, drawn, fun e => ?_⟩
  exact (Graph.mem_filter_tag (fun tag => tag ≠ flowTag ∧ tag ≠ controlTag) drawn e).trans (edges e)

end ProgramDependence
