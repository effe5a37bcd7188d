import ProgramDependence.Proofs.Method.Labels
import ProgramDependence.Proofs.PostDominance.Roots

/-! Control dependence is not always rooted at the entry. The entry takes only blocks that depend on no
other, so blocks that decide on each other are left to themselves if no decision leads to them. From the
entry, and from such circles of blocks that are come to in any case, every block is reached. -/
namespace ProgramDependence

open Relation (ReflTransGen)

namespace Graph

variable {g : Graph} {tag : String} {i j k : Identity} {n : Nat}

/-- From the vertex of one identity to that of another over edges with one tag. -/
def LeadsOver (g : Graph) (tag : String) (i j : Identity) : Prop :=
  ∃ s t, g.idOf? i = some s ∧ g.idOf? j = some t ∧
    ReflTransGen (fun s t => ⟨s, t, tag⟩ ∈ g.edges) s t

theorem LeadsOver.refl (found : g.idOf? i = some n) : g.LeadsOver tag i i :=
  ⟨n, n, found, found, .refl⟩

theorem LeadsOver.tail (plain : g.Plain) (way : g.LeadsOver tag i j) (shown : g.Shows ⟨j, k, tag⟩) :
    g.LeadsOver tag i k := by
  obtain ⟨s, t, source, target, path⟩ := way
  obtain ⟨t', u, found, last, edge⟩ := shown
  obtain rfl := Option.some.inj (target.symm.trans (plain.idOf?_iff.mpr found))
  exact ⟨s, u, source, plain.idOf?_iff.mpr last, path.tail edge⟩

/-- What holds of the start and is kept by the links of the tag holds of the end. -/
theorem LeadsOver.kept {Holds : Identity → Prop} (plain : g.Plain)
    (step : ∀ i j, g.Shows ⟨i, j, tag⟩ → Holds i → Holds j) (way : g.LeadsOver tag i j)
    (start : Holds i) : Holds j := by
  obtain ⟨s, t, source, target, path⟩ := way
  induction path generalizing j with
  | refl =>
    obtain rfl := Option.some.inj ((Graph.idOf?_get source).symm.trans (Graph.idOf?_get target))
    exact start
  | @tail t u _ edge ih =>
    obtain ⟨⟨_, _, _⟩, shown, first, last, rfl⟩ := plain.mem_edges_iff.mp edge
    obtain rfl := Option.some.inj ((Graph.idOf?_get last).symm.trans (Graph.idOf?_get target))
    exact step _ _ shown (ih first)

end Graph

namespace Frame

variable {labelling : Labelling} {c : Class} {m : Method} {b : Body} {a : Analysis}
  {g : Graph} {i : Identity} {y z : Nat}

/-- Where the control dependences of a method are shown, there is a way along every chain of them. -/
theorem leadsOver_of_governs (plain : g.Plain)
    (shown : ∀ l, (ofAnalysis labelling c m a).Controls b l → g.Shows l)
    (start : g.LeadsOver controlTag i ((ofAnalysis labelling c m a).node z))
    (chain : ReflTransGen a.partition.graph.Governs z y) :
    g.LeadsOver controlTag i ((ofAnalysis labelling c m a).node y) := by
  induction chain with
  | refl => exact start
  | tail _ governs ih =>
    obtain ⟨s, _, free, toward⟩ := governs.1
    exact ih.tail plain (shown _ (.block (toward.not_stuck free) governs))

end Frame

/-- Built alone, a method whose blocks are all reachable and all reach an exit has paths of control
dependence to all of them: from the entry, or from a block that post-dominates the first one and is control
dependent, through another one, on itself. -/
theorem control_rooted_or_circular (labelling : Labelling) (policy : Policy) (c : Class) (m : Method)
    (b : Body) (inRange : b.InRange) :
    let r := buildMethod labelling policy c m b .empty
    ∃ a, b.analyze policy = .ok a ∧
      let f := Frame.ofAnalysis labelling c m a
      let blocks := a.partition.graph
      (∀ y < a.blocks.length, ReflTransGen blocks.Next 0 y) →
      (∀ y < a.blocks.length, ¬blocks.Stuck y) →
      ∀ y < a.blocks.length, r.graph.LeadsOver controlTag f.entry (f.node y) ∨
        ∃ z, blocks.PostDominates z 0 ∧ blocks.Circular z ∧
          r.graph.LeadsOver controlTag (f.node z) (f.node y) := by
  intro r
  obtain ⟨a, analyzed⟩ := Body.analyze_of_inRange policy inRange
  have known := Body.analyzed analyzed
  obtain ⟨n, _, drawn⟩ := buildMethod_extends labelling c m Graph.empty_plain analyzed
  refine ⟨a, analyzed, ?_⟩
  intro f blocks entered free y bound
  have plain : r.graph.Plain := drawn.plain
  have shown (l : Link) (controls : f.Controls b l) : r.graph.Shows l :=
    (drawn.shows_iff l).mpr (.inr ((Frame.controls_iff known).mp controls).1)
  have sized : blocks.size = a.blocks.length := known.graph_size
  have startFree : ¬blocks.Stuck 0 := free 0 (Nat.zero_lt_of_lt bound)
  have metFree (s : Nat) (way : ReflTransGen blocks.Next 0 s) : ¬blocks.Stuck s := by
    cases way with
    | refl => exact startFree
    | tail _ edge => exact free s (sized ▸ known.graph_closed _ s edge)
  obtain ⟨z, root, chain⟩ := Digraph.exists_root (entered y bound) metFree
  obtain ⟨w, higher, rest, cause⟩ := Digraph.alone_or_circular (sized ▸ entered) metFree root
  have wFree : ¬blocks.Stuck w := higher.not_stuck startFree
  have whole : ReflTransGen blocks.Governs w y := rest.trans chain
  rcases cause with alone | circular
  · obtain ⟨k, found⟩ := Frame.idOf?_of_allNodes (f := f) drawn f.entry_mem_allNodes
    have first : r.graph.LeadsOver controlTag f.entry (f.node w) :=
      (Graph.LeadsOver.refl found).tail plain (shown _ (.entry wFree alone))
    exact .inl (Frame.leadsOver_of_governs plain shown first whole)
  · have inside : w < f.blocks.length := sized ▸ Digraph.lt_of_not_stuck wFree
    obtain ⟨k, found⟩ := Frame.idOf?_of_allNodes (f := f) drawn (f.node_mem_allNodes inside)
    have here : r.graph.LeadsOver controlTag (f.node w) (f.node w) := .refl found
    exact .inr ⟨w, higher, circular, Frame.leadsOver_of_governs plain shown here whole⟩

/-- A loop that is left at its head and at its end. -/
def twoExits : Body where
  locals := []
  code := [
    ⟨.branch (.localVar "a") 2, .zero⟩,
    ⟨.branch (.localVar "b") 0, .zero⟩,
    ⟨.ret none, .zero⟩]

/-- Its blocks: what each leads to. -/
def twoExitsFlow : Digraph := ⟨[[1, 2], [0, 2], []]⟩

theorem twoExits_analysis : ∃ a, twoExits.analyze .unit = .ok a ∧ a.body = twoExits ∧
    a.blocks = [⟨0, 0⟩, ⟨1, 1⟩, ⟨2, 2⟩] ∧ a.partition.graph = twoExitsFlow :=
  ⟨_, rfl, rfl, rfl, rfl⟩

/-- All its blocks are reachable and reach an exit. -/
theorem twoExits_passable : (∀ y < 3, ReflTransGen twoExitsFlow.Next 0 y) ∧
    ∀ y < 3, ¬twoExitsFlow.Stuck y := by
  have last : twoExitsFlow.ExitPath 2 [2] := .exit (by decide) rfl
  have edge {x y : Nat} (member : y ∈ twoExitsFlow.succs x) : ReflTransGen twoExitsFlow.Next x y :=
    .single member
  constructor
  · rintro (_ | _ | _ | y) bound
    · exact .refl
    · exact edge (by decide)
    · exact edge (by decide)
    · omega
  · rintro (_ | _ | _ | y) bound <;> apply Digraph.not_stuck.mpr
    · exact ⟨_, .step (by decide) last⟩
    · exact ⟨_, .step (by decide) last⟩
    · exact ⟨_, last⟩
    · omega

/-- The two blocks of the loop decide on each other, and no block on the one after it. -/
theorem twoExits_governs {x y : Nat} (bound : y < 3) :
    twoExitsFlow.Governs x y ↔ x ∈ [[1], [0], []].getD y [] := by
  have closed : twoExitsFlow.Closed := by
    rintro (_ | _ | _ | i) j edge
    all_goals simp [twoExitsFlow, Digraph.succs, Digraph.size] at edge ⊢; try omega
  rcases Frontiers.compute_cases closed with ⟨⟨_, stuck⟩, _⟩ | ⟨_, frontiers, found, exactly⟩
  · exact absurd (stuck y bound) (twoExits_passable.2 y bound)
  · have computed : (Frontiers.compute twoExitsFlow).map (·.sets) = .ok [[1], [0], []] := rfl
    rw [found] at computed
    have sets : frontiers.sets = [[1], [0], []] := Except.ok.inj computed
    rw [← exactly.mem_frontier x y (twoExits_passable.2 y bound), Frontiers.frontier, sets]

section

variable {labelling : Labelling} {c : Class} {m : Method} {a : Analysis} {x : Nat} {l : Link}

/-- The two branches do not look like the return after them. -/
theorem twoExits_kinds (body : a.body = twoExits) (blocks : a.blocks = [⟨0, 0⟩, ⟨1, 1⟩, ⟨2, 2⟩])
    (bound : x < 2) : ((Frame.ofAnalysis labelling c m a).node x).kind ≠
      ((Frame.ofAnalysis labelling c m a).node 2).kind := by
  have kind {k : Nat} {block : Block} (there : a.blocks[k]? = some block) :
      ((Frame.ofAnalysis labelling c m a).node k).kind = (a.blockKind block).name := by
    rw [Frame.node_eq, there]
    rfl
  have last : a.blockKind ⟨2, 2⟩ = .ret := by
    rw [Analysis.blockKind, Analysis.stmtsOf, Analysis.codeOf, body]
    rfl
  have either : x = 0 ∨ x = 1 := by omega
  have decides : a.blockKind ⟨x, x⟩ = .branch := by
    rw [Analysis.blockKind, Analysis.stmtsOf, Analysis.codeOf, body]
    obtain rfl | rfl := either <;> rfl
  have there : a.blocks[x]? = some ⟨x, x⟩ := by
    rw [blocks]
    obtain rfl | rfl := either <;> rfl
  rw [kind there, decides, kind (blocks ▸ rfl : a.blocks[2]? = some ⟨2, 2⟩), last]
  decide

/-- From the entry and from the return, control leads nowhere but to the return. -/
theorem twoExits_controls (known : Body.Analyzed .unit twoExits a)
    (blocks : a.blocks = [⟨0, 0⟩, ⟨1, 1⟩, ⟨2, 2⟩]) (flow : a.partition.graph = twoExitsFlow)
    (controls : (Frame.ofAnalysis labelling c m a).Controls twoExits l)
    (source : l.source = .entry c m ∨ l.source = (Frame.ofAnalysis labelling c m a).node 2) :
    l.target = (Frame.ofAnalysis labelling c m a).node 2 := by
  have same : (Frame.ofAnalysis labelling c m a).analysis.partition.graph = twoExitsFlow := flow
  cases controls with
  | @block x y free governs =>
    rw [same] at free governs
    have bound : y < 3 := Digraph.lt_of_not_stuck free
    have inLoop : x < 2 := by
      have member := (twoExits_governs bound).mp governs
      match y, bound with
      | 0, _ => simp at member; omega
      | 1, _ => simp at member; omega
      | 2, _ => simp at member
    have inside : x < a.blocks.length := by
      rw [blocks]
      exact Nat.lt_succ_of_lt inLoop
    rcases source with entry | last
    · exact absurd (congrArg Identity.kind entry) (Frame.node_kind_ne_entry inside)
    · exact absurd (congrArg Identity.kind last) (twoExits_kinds known.body blocks inLoop)
  | @entry y free alone =>
    rw [same] at free alone
    have bound : y < 3 := Digraph.lt_of_not_stuck free
    match y, bound with
    | 0, _ =>
      have governs : twoExitsFlow.Governs 1 0 := (twoExits_governs (by decide)).mpr (by decide)
      exact absurd (alone 1 governs) (by decide)
    | 1, _ =>
      have governs : twoExitsFlow.Governs 0 1 := (twoExits_governs (by decide)).mpr (by decide)
      exact absurd (alone 0 governs) (by decide)
    | 2, _ => rfl
  | @constant i k instruction ty text _ there operand =>
    -- there are no constants in it
    match i with
    | 0 =>
      obtain rfl := Option.some.inj there
      match k with
      | 0 => cases operand
    | 1 =>
      obtain rfl := Option.some.inj there
      match k with
      | 0 => cases operand
    | 2 =>
      obtain rfl := Option.some.inj there
      cases operand

end

/-- The branches of the loop depend on each other only, so no way leads to them from the entry. -/
theorem twoExits_not_rooted : twoExits.InRange ∧ 0 < twoExits.size ∧
    let r := buildMethod .listing .unit ⟨"p", "p.C", "C.java", []⟩ ⟨"m", "<p.C: void m()>", 1, 2, none⟩
      twoExits .empty
    ∃ a, twoExits.analyze .unit = .ok a ∧
      let f := Frame.ofAnalysis .listing ⟨"p", "p.C", "C.java", []⟩ ⟨"m", "<p.C: void m()>", 1, 2, none⟩ a
      let blocks := a.partition.graph
      (∀ y < a.blocks.length, ReflTransGen blocks.Next 0 y) ∧
      (∀ y < a.blocks.length, ¬blocks.Stuck y) ∧
      0 < a.blocks.length ∧ ¬r.graph.LeadsOver controlTag f.entry (f.node 0) := by
  obtain ⟨a, analyzed, _, blocks, flow⟩ := twoExits_analysis
  have known := Body.analyzed analyzed
  have length : a.blocks.length = 3 := congrArg List.length blocks
  refine ⟨by decide, by decide, ?_⟩
  intro r
  refine ⟨a, analyzed, ?_⟩
  intro f graph
  rw [length, show graph = twoExitsFlow from flow]
  refine ⟨twoExits_passable.1, twoExits_passable.2, by decide, fun way => ?_⟩
  obtain ⟨_, _, plain, shown⟩ := buildMethod_empty .listing .unit f.owner f.method analyzed
  have step (i j : Identity) (link : r.graph.Shows ⟨i, j, controlTag⟩)
      (source : i = f.entry ∨ i = f.node 2) : j = f.entry ∨ j = f.node 2 :=
    .inr (twoExits_controls known blocks flow
      ((Frame.controls_iff known).mpr ⟨(shown _).mp link, rfl⟩) source)
  rcases way.kept plain step (.inl rfl) with entry | last
  · exact Frame.node_kind_ne_entry (by omega) (congrArg Identity.kind entry)
  · exact twoExits_kinds known.body blocks (by decide) (congrArg Identity.kind last)

theorem twoExits_rooted_or_circular : twoExits.InRange ∧
    let r := buildMethod .trees .unit ⟨"p", "p.C", "C.java", []⟩ ⟨"m", "<p.C: void m()>", 1, 2, none⟩
      twoExits .empty
    ∃ a, twoExits.analyze .unit = .ok a ∧
      let f := Frame.ofAnalysis .trees ⟨"p", "p.C", "C.java", []⟩ ⟨"m", "<p.C: void m()>", 1, 2, none⟩ a
      let blocks := a.partition.graph
      (∀ y < a.blocks.length, ReflTransGen blocks.Next 0 y) ∧
      (∀ y < a.blocks.length, ¬blocks.Stuck y) ∧
      ∀ y < a.blocks.length, r.graph.LeadsOver controlTag f.entry (f.node y) ∨
        ∃ z, blocks.PostDominates z 0 ∧ blocks.Circular z ∧
          r.graph.LeadsOver controlTag (f.node z) (f.node y) := by
  have inRange : twoExits.InRange := by decide
  refine ⟨inRange, ?_⟩
  obtain ⟨a, analyzed, rooted⟩ := control_rooted_or_circular .trees .unit
    ⟨"p", "p.C", "C.java", []⟩ ⟨"m", "<p.C: void m()>", 1, 2, none⟩ twoExits inRange
  obtain ⟨a', again, _, blocks, flow⟩ := twoExits_analysis
  obtain rfl := Except.ok.inj (analyzed.symm.trans again)
  have entered : ∀ y < a.blocks.length, ReflTransGen a.partition.graph.Next 0 y := by
    rw [blocks, flow]
    exact twoExits_passable.1
  have free : ∀ y < a.blocks.length, ¬a.partition.graph.Stuck y := by
    rw [blocks, flow]
    exact twoExits_passable.2
  exact ⟨a, analyzed, entered, free, rooted entered free⟩

end ProgramDependence
