import ProgramDependence.Proofs.Method.Sketch

/-! Building a method never fails, whatever the graph. Every edge is added between numbers that were
given out before, and a number that was given out stays good: a step is specified by the nodes it
asks for and the links it adds. -/
namespace ProgramDependence

open Graph (Grows)

namespace Builder

variable {b b' b'' : Building} {is js : List Identity} {ls ks : List Link} {i j : Identity}
  {source target k : Nat} {tag : String}

/-! ### Steps -/

/-- From `b`, the step succeeds: it asks for `mentions`, adds `links`, and comes to `b'`. -/
structure Runs (step : Builder α) (b : Building) (mentions : List Identity) (links : List Link) (x : α)
    (b' : Building) : Prop where
  ok : step b = .ok x b'
  grows : b.graph.Grows mentions links b'.graph

theorem Runs.bind {s : Builder α} {t : α → Builder β} {x : α} {y : β}
    (start : Runs s b is ls x b') (rest : Runs (t x) b' js ks y b'') :
    Runs (s >>= t) b (is ++ js) (ls ++ ks) y b'' where
  ok := by
    change EStateM.bind s t b = _
    simp only [EStateM.bind, start.ok]
    exact rest.ok
  grows := start.grows.trans rest.grows

theorem Runs.congr {step : Builder α} {x : α} (runs : Runs step b is ls x b') (nodes : is = js)
    (links : ls = ks) : Runs step b js ks x b' :=
  nodes ▸ links ▸ runs

theorem runs_pure (x : α) (b : Building) : Runs (pure x) b [] [] x b := ⟨rfl, .refl _⟩

theorem runs_log (e : Event) (b : Building) :
    Runs (log e) b [] [] () { b with events := b.events ++ [e] } :=
  ⟨rfl, .refl _⟩

theorem runs_amend (change : Report → Report) (b : Building) :
    Runs (amend change) b [] [] () { b with report := change b.report } :=
  ⟨rfl, .refl _⟩

theorem runs_intern (i : Identity) (b : Building) :
    Runs (intern i) b [i] [] (b.graph.intern i).2 { b with graph := (b.graph.intern i).1 } :=
  ⟨rfl, Graph.intern_grows b.graph i⟩

theorem addEdge_of_ok {h : Graph} (done : b.graph.addEdge source target tag = .ok h) :
    addEdge source target tag b = .ok () { b with graph := h } := by
  simp only [addEdge, done]

theorem runs_addEdge (hs : b.graph.identities[source]? = some i)
    (ht : b.graph.identities[target]? = some j) (tag : String) :
    ∃ h, Runs (addEdge source target tag) b [] [⟨i, j, tag⟩] () { b with graph := h } := by
  obtain ⟨h, done, grows⟩ := Graph.addEdge_grows hs ht tag
  exact ⟨h, addEdge_of_ok done, grows⟩

/-- The edge is looked up before it is added, so what is counted is what it changes. -/
theorem runs_addDataEdge (hs : b.graph.identities[source]? = some i)
    (ht : b.graph.identities[target]? = some j) (tag : String) :
    ∃ h new, Runs (addDataEdge source target tag) b [] [⟨i, j, tag⟩] ()
        { b with graph := h, report := { b.report with dataEdges := b.report.dataEdges + new } } ∧
      (b.graph.Plain → h.edgeCount = b.graph.edgeCount + new) := by
  obtain ⟨h, done, grows⟩ := Graph.addEdge_grows hs ht tag
  let known := b.graph.hasEdge source target tag
  refine ⟨h, if known then 0 else 1, ⟨?_, grows⟩, fun plain => ?_⟩
  · have counted : (if known then b.report else { b.report with dataEdges := b.report.dataEdges + 1 }) =
        { b.report with dataEdges := b.report.dataEdges + if known then 0 else 1 } := by
      split <;> rfl
    rw [← counted]
    exact addEdge_of_ok done
  · rw [Graph.addEdge_edgeCount plain.sound done]
    split <;> rfl

/-- Steps that each run wherever `P` holds, one after another. -/
theorem runs_forM {step : α → Builder Unit} {mentions : α → List Identity} {links : α → List Link}
    {P : Graph → Prop} (kept : ∀ {g is ls h}, Grows g is ls h → P g → P h)
    (each : ∀ b x, P b.graph → ∃ h, Runs (step x) b (mentions x) (links x) () { b with graph := h })
    (xs : List α) (start : P b.graph) :
    ∃ h, Runs (xs.forM step) b (xs.flatMap mentions) (xs.flatMap links) () { b with graph := h } := by
  induction xs generalizing b with
  | nil => exact ⟨b.graph, runs_pure () b⟩
  | cons x xs ih =>
    obtain ⟨one, first⟩ := each b x start
    obtain ⟨h, rest⟩ := ih (b := { b with graph := one }) (kept first.grows start)
    exact ⟨h, first.bind rest⟩

end Builder

namespace Frame

open Builder

variable {f : Frame} {b b' b'' : Building} {entry node : Nat} {n : Numbers}

/-! ### Blocks and constants -/

theorem runs_addConstant {i : Identity} (he : b.graph.identities[entry]? = some f.entry)
    (hn : b.graph.identities[node]? = some i) (constant : Identity × String) :
    ∃ h, Runs (addConstant entry node constant) b [constant.1]
      [⟨f.entry, constant.1, controlTag⟩, ⟨constant.1, i, constant.2⟩] () { b with graph := h } := by
  have made := runs_intern constant.1 b
  have number := Graph.intern_get b.graph constant.1
  obtain ⟨g, first⟩ := runs_addEdge (b := { b with graph := (b.graph.intern constant.1).1 })
    (made.grows.get he) number controlTag
  obtain ⟨h, second⟩ := runs_addEdge (b := { b with graph := g }) (first.grows.get number)
    (first.grows.get (made.grows.get hn)) constant.2
  exact ⟨h, made.bind (first.bind second)⟩

theorem runs_addBlock (he : b.graph.identities[entry]? = some f.entry) (block : Block) :
    ∃ id h, Runs (f.addBlock entry block) b (f.nodesOf block) (f.constantLinks block) id
      { b with graph := h } ∧ h.identities[id]? = some (f.blockNode block) := by
  have made := runs_intern (f.blockNode block) b
  have number := Graph.intern_get b.graph (f.blockNode block)
  obtain ⟨h, constants⟩ := runs_forM
    (P := fun g => g.identities[entry]? = some f.entry ∧
      g.identities[(b.graph.intern (f.blockNode block)).2]? = some (f.blockNode block))
    (fun grows known => ⟨grows.get known.1, grows.get known.2⟩)
    (fun b constant known => runs_addConstant known.1 known.2 constant)
    (b := { b with graph := (b.graph.intern (f.blockNode block)).1 })
    (f.constantsIn block) ⟨made.grows.get he, number⟩
  have finished := constants.bind (t := fun _ => pure (b.graph.intern (f.blockNode block)).2)
    (runs_pure _ _)
  refine ⟨_, h, Runs.congr (made.bind finished) ?_ ?_, constants.grows.get number⟩
  · simp [nodesOf, List.map_eq_flatMap]
  · simp [constantLinks]

/-- Each block is known by its number. -/
def Numbered (f : Frame) (g : Graph) (ids : List Nat) (blocks : List Block) : Prop :=
  List.Forall₂ (fun id block => g.identities[id]? = some (f.blockNode block)) ids blocks

theorem runs_addBlocks (he : b.graph.identities[entry]? = some f.entry) (blocks : List Block) :
    ∃ ids h, Runs (blocks.mapM (f.addBlock entry)) b (blocks.flatMap f.nodesOf)
      (blocks.flatMap f.constantLinks) ids { b with graph := h } ∧ f.Numbered h ids blocks := by
  induction blocks generalizing b with
  | nil => exact ⟨[], b.graph, runs_pure [] b, .nil⟩
  | cons block blocks ih =>
    obtain ⟨id, g, first, number⟩ := runs_addBlock he block
    obtain ⟨ids, h, rest, numbered⟩ := ih (b := { b with graph := g }) (first.grows.get he)
    refine ⟨id :: ids, h, ?_, .cons (rest.grows.get number) numbered⟩
    have finished := rest.bind (t := fun ids => pure (id :: ids)) (runs_pure _ _)
    rw [List.mapM_cons]
    exact Runs.congr (first.bind finished) (by simp) (by simp)

/-! ### Arcs -/

/-- The numbers of a method's nodes are good in a graph. -/
def Knows (f : Frame) (n : Numbers) (g : Graph) : Prop :=
  ∀ e, g.identities[n.get e]? = some (f.identityOf e)

theorem Knows.grows {g h : Graph} {is : List Identity} {ls : List Link} (grows : Grows g is ls h)
    (known : f.Knows n g) : f.Knows n h :=
  fun e => grows.get (known e)

theorem knows_of_numbered {g : Graph} {ids : List Nat} (he : g.identities[entry]? = some f.entry)
    (numbered : f.Numbered g ids f.blocks) : f.Knows ⟨entry, ids⟩ g := by
  intro e
  cases e with
  | entry => exact he
  | block index =>
    simp only [Numbers.get, identityOf, node, nodes, List.getD_eq_getElem?_getD, List.getElem?_map]
    cases there : f.blocks[index]? with
    | none =>
      have out : ids.length ≤ index := numbered.length_eq ▸ List.getElem?_eq_none_iff.mp there
      simpa [List.getElem?_eq_none out] using he
    | some block =>
      obtain ⟨bound, rfl⟩ := List.getElem?_eq_some_iff.mp there
      have inside : index < ids.length := numbered.length_eq ▸ bound
      simpa [List.getElem?_eq_getElem inside] using numbered.get inside bound

theorem runs_addArc (known : f.Knows n b.graph) (arc : Arc) :
    ∃ h, Runs (addArc n arc) b [] [f.linkOf arc] () { b with graph := h } :=
  runs_addEdge (known arc.source) (known arc.target) arc.tag

theorem runs_addArcs (known : f.Knows n b.graph) (arcs : List Arc) :
    ∃ h, Runs (arcs.forM (addArc n)) b [] (arcs.map f.linkOf) () { b with graph := h } := by
  obtain ⟨h, runs⟩ := runs_forM (P := f.Knows n) Knows.grows
    (fun b arc known => runs_addArc known arc) arcs known
  exact ⟨h, runs.congr (by simp) (by simp [List.map_eq_flatMap])⟩

theorem runs_dropStuck (f : Frame) (stuck : List Nat) (fresh : b.report.blocksDropped = 0) :
    ∃ b', Runs (f.dropStuck stuck) b [] [] () b' ∧ b'.graph = b.graph ∧
      b'.report = { b.report with blocksDropped := stuck.length } := by
  unfold dropStuck
  split
  next none =>
    refine ⟨b, runs_pure () b, rfl, ?_⟩
    rw [List.isEmpty_iff.mp none, List.length_nil, ← fresh]
  next => exact ⟨_, (runs_log _ b).bind (runs_amend _ _), rfl, rfl⟩

theorem runs_addControl (known : f.Knows n b.graph) {made : Nat}
    (fresh : b.report = ⟨made, 0, false, 0, 0⟩) :
    ∃ b', Runs (f.addControl n) b [] f.drawnControls () b' ∧
      b'.report = ⟨made, 0, f.controlAbandoned, f.blocksDropped, 0⟩ := by
  simp only [addControl, drawnControls, controlAbandoned, blocksDropped]
  cases Frontiers.compute f.analysis.partition.graph with
  | error e =>
    refine ⟨_, (runs_log _ b).bind (runs_amend _ _), ?_⟩
    simp only [fresh]
    rfl
  | ok frontiers =>
    obtain ⟨b', dropped, graph, report⟩ := runs_dropStuck f frontiers.stuck (b := b) (by rw [fresh])
    obtain ⟨h, added⟩ := runs_addArcs (graph ▸ known) (f.controlArcs frontiers)
    refine ⟨_, dropped.bind added, ?_⟩
    simp only [report, fresh]
    rfl

/-! ### Data dependences -/

/-- A step in the search for data dependences, which finds `found`: edges that are new are counted, and so
is what has no tag. -/
structure Finds (f : Frame) (step : Builder Unit) (b : Building) (found : List (Except Untagged Arc))
    (b' : Building) : Prop where
  runs : Runs step b [] ((arcsOf found).map f.linkOf) () b'
  report : b'.report = { b.report with
    dataEdges := b'.report.dataEdges
    skippedEdges := b.report.skippedEdges + (untaggedOf found).length }
  count : b.graph.Plain →
    b'.report.dataEdges + b.graph.edgeCount = b.report.dataEdges + b'.graph.edgeCount

theorem Finds.bind {first next : Builder Unit} {found found' : List (Except Untagged Arc)}
    (start : f.Finds first b found b') (rest : f.Finds next b' found' b'') :
    f.Finds (first >>= fun _ => next) b (found ++ found') b'' where
  runs := (start.runs.bind rest.runs).congr rfl (by simp [arcsOf])
  report := by
    rw [rest.report, start.report]
    simp [untaggedOf, Nat.add_assoc]
  count plain := by
    have before := start.count plain
    have after := rest.count (start.runs.grows.extension plain).plain
    omega

theorem finds_nothing {step : Builder Unit} (runs : Runs step b [] [] () b')
    (report : b'.report = b.report) (graph : b'.graph = b.graph) : f.Finds step b [] b' where
  runs := runs
  report := by rw [report]; rfl
  count _ := by rw [report, graph]

theorem finds_forM {step : α → Builder Unit} (found : α → List (Except Untagged Arc))
    (each : ∀ b x, f.Knows n b.graph → ∃ b', f.Finds (step x) b (found x) b') (xs : List α)
    (known : f.Knows n b.graph) : ∃ b', f.Finds (xs.forM step) b (xs.flatMap found) b' := by
  induction xs generalizing b with
  | nil => exact ⟨b, finds_nothing (runs_pure () b) rfl rfl⟩
  | cons x xs ih =>
    obtain ⟨b', first⟩ := each b x known
    obtain ⟨b'', rest⟩ := ih (known.grows first.runs.grows)
    exact ⟨b'', first.bind rest⟩

theorem finds_addFound (known : f.Knows n b.graph) (x : Except Untagged Arc) :
    ∃ b', f.Finds (f.addFound n x) b [x] b' := by
  cases x with
  | error u =>
    exact ⟨_, (runs_log _ b).bind (runs_amend _ _), rfl, fun _ => rfl⟩
  | ok arc =>
    obtain ⟨h, new, runs, count⟩ := runs_addDataEdge (known arc.source) (known arc.target) arc.tag
    refine ⟨_, runs, rfl, fun plain => ?_⟩
    have grown := count plain
    simp only
    omega

theorem finds_addDataOf (known : f.Knows n b.graph) (reaching : Reaching) (block : Block × Nat) :
    ∃ b', f.Finds (f.addDataOf n reaching block) b (f.dataArcs reaching block.1 block.2) b' := by
  obtain ⟨b', logged⟩ := finds_forM (fun _ => [])
    (fun b i _ => ⟨_, finds_nothing (runs_log (.untracked f.method.signature i) b) rfl rfl⟩)
    (f.untrackedIn block.1) known
  obtain ⟨b'', added⟩ := finds_forM (fun x => [x]) (fun b x known => finds_addFound known x)
    (f.dataArcs reaching block.1 block.2) (known.grows logged.runs.grows)
  have nothing : (f.untrackedIn block.1).flatMap (fun _ => []) = ([] : List (Except Untagged Arc)) := by
    simp
  rw [nothing] at logged
  rw [List.flatMap_singleton'] at added
  exact ⟨b'', logged.bind added⟩

theorem finds_addData (known : f.Knows n b.graph) : ∃ b', f.Finds (f.addData n) b f.found b' :=
  finds_forM _ (fun _ block known => finds_addDataOf known _ block) f.blocks.zipIdx known

/-! ### Methods -/

/-- From a graph that has the entry under its number, a method is built to the end. What is counted of
its data dependences is what they add to the graph that has the other links. -/
theorem runs_build (f : Frame) (g : Graph) (he : g.identities[entry]? = some f.entry) :
    ∃ linked b, f.build entry ⟨g, .none, []⟩ = .ok () b ∧
      g.Grows (f.blocks.flatMap f.nodesOf) f.links linked ∧ linked.Grows [] f.data b.graph ∧
      b.report = f.reportWith b.report.dataEdges ∧
      (linked.Plain → b.report.dataEdges + linked.edgeCount = b.graph.edgeCount) := by
  let opening : Event := .building f.method.signature f.analysis.body.size f.blocks.length
  have opened := runs_log opening ⟨g, .none, []⟩
  obtain ⟨ids, withBlocks, blocks, numbered⟩ := runs_addBlocks (opened.grows.get he) f.blocks
  have known := knows_of_numbered (blocks.grows.get he) numbered
  have amended := runs_amend (fun r => { r with blocks := ids.length }) ⟨withBlocks, .none, [opening]⟩
  obtain ⟨withFlow, flow⟩ :=
    runs_addArcs (b := ⟨withBlocks, ⟨ids.length, 0, false, 0, 0⟩, [opening]⟩) known f.flowArcs
  obtain ⟨b, control, lost⟩ :=
    runs_addControl (b := ⟨withFlow, ⟨ids.length, 0, false, 0, 0⟩, [opening]⟩) (known.grows flow.grows) rfl
  obtain ⟨b', data⟩ := finds_addData (known.grows (flow.grows.trans control.grows))
  have linked := opened.grows.trans (blocks.grows.trans (amended.grows.trans
    (flow.grows.trans control.grows)))
  have whole : Runs (f.build entry) ⟨g, .none, []⟩ _ _ () b' :=
    opened.bind (blocks.bind (amended.bind (flow.bind (control.bind data.runs))))
  refine ⟨b.graph, b', whole.ok, ?_, data.runs.grows, ?_, fun plain => ?_⟩
  · simpa [links, allConstantLinks, flowLinks] using linked
  · rw [data.report, lost, numbered.length_eq]
    simp [reportWith, skippedEdges]
  · have count := data.count plain
    rw [lost, Nat.zero_add] at count
    exact count

end Frame

section

variable {policy : Policy} {body : Body} {a : Analysis}

/-- A method whose body can be analyzed is built, whatever the graph: its nodes are asked for, its links
are added, and its data dependences after the others. -/
theorem buildMethod_runs (labelling : Labelling) (c : Class) (m : Method) (g : Graph)
    (analyzed : body.analyze policy = .ok a) :
    let f := Frame.ofAnalysis labelling c m a
    let r := buildMethod labelling policy c m body g
    ∃ linked n, r.report = .ok (f.reportWith n) ∧ g.Grows f.allNodes f.links linked ∧
      linked.Grows [] f.data r.graph ∧ (linked.Plain → n + linked.edgeCount = r.graph.edgeCount) := by
  intro f r
  have opened := Graph.intern_grows g (.entry c m)
  obtain ⟨linked, b, built, links, data, report, count⟩ :=
    f.runs_build (g.intern (.entry c m)).1 (Graph.intern_get g (.entry c m))
  have result : r = ⟨b.graph, .ok b.report, b.events⟩ := by
    simp only [r, buildMethod, analyzed]
    exact congrArg MethodResult.ofRun built
  rw [result]
  exact ⟨linked, _, congrArg Except.ok report, opened.trans links, data, count⟩

theorem buildMethod_extends (labelling : Labelling) (c : Class) (m : Method) {g : Graph} (plain : g.Plain)
    (analyzed : body.analyze policy = .ok a) :
    let f := Frame.ofAnalysis labelling c m a
    let r := buildMethod labelling policy c m body g
    ∃ n, r.report = .ok (f.reportWith n) ∧ g.Extends f.allNodes (f.links ++ f.data) r.graph := by
  obtain ⟨linked, n, report, links, data, _⟩ := buildMethod_runs labelling c m g analyzed
  refine ⟨n, report, ?_⟩
  simpa using (links.trans data).extension plain

/-- A method that is built alone shows its own links and nothing else. -/
theorem buildMethod_empty (labelling : Labelling) (policy : Policy) (c : Class) (m : Method)
    (analyzed : body.analyze policy = .ok a) :
    let f := Frame.ofAnalysis labelling c m a
    let r := buildMethod labelling policy c m body .empty
    ∃ n, r.report = .ok (f.reportWith n) ∧
      r.graph.Plain ∧ ∀ l, r.graph.Shows l ↔ l ∈ f.links ++ f.data := by
  obtain ⟨n, report, drawn⟩ := buildMethod_extends labelling c m Graph.empty_plain analyzed
  refine ⟨n, report, drawn.plain, fun l => ?_⟩
  simpa only [Graph.not_shows_empty, false_or] using drawn.shows_iff l

end
end ProgramDependence
