import ProgramDependence.Proofs.Method.Ends

/-! Labels do not change what depends on what. Whatever a block is called, its node keeps the listing of its
statements, so nodes that fall together under some labelling also do when blocks are called by their
listings, and the graph with listings is the image of the other one without its constants. -/
namespace ProgramDependence

/-- The same node called by its listing. An entry keeps its name. -/
def Identity.listed (i : Identity) : Identity :=
  if i.kind = NodeKind.entry.name then i else { i with label := i.extra }

def Link.listed (l : Link) : Link := ⟨l.source.listed, l.target.listed, l.tag⟩

/-- One of the ends is a constant. -/
def Link.TouchesConstant (l : Link) : Prop :=
  l.source.kind = NodeKind.constant.name ∨ l.target.kind = NodeKind.constant.name

namespace Frame

variable {labelling : Labelling} {policy : Policy} {c : Class} {m : Method} {b : Body} {a : Analysis}
  {l : Link}

/-! ### Nodes and links by listing -/

theorem blockNode_listed (labelling : Labelling) (c : Class) (m : Method) (a : Analysis) (block : Block) :
    (a.blockNode labelling c m block).listed = a.blockNode .listing c m block := by
  have kind : (a.blockNode labelling c m block).kind ≠ NodeKind.entry.name := (Analysis.kindOf_ne _).1
  rw [Identity.listed, if_neg kind]
  rfl

theorem node_listed (labelling : Labelling) (c : Class) (m : Method) (a : Analysis) (k : Nat) :
    ((ofAnalysis labelling c m a).node k).listed = (ofAnalysis .listing c m a).node k := by
  rw [node_eq, node_eq]
  cases a.blocks[k]? with
  | none => rfl
  | some block => exact blockNode_listed labelling c m a block

theorem linkOf_listed (labelling : Labelling) (c : Class) (m : Method) (a : Analysis) (arc : Arc) :
    ((ofAnalysis labelling c m a).linkOf arc).listed = (ofAnalysis .listing c m a).linkOf arc := by
  have identity (e : End) : ((ofAnalysis labelling c m a).identityOf e).listed =
      (ofAnalysis .listing c m a).identityOf e := by
    cases e with
    | entry => rfl
    | block k => exact node_listed labelling c m a k
  simp only [linkOf, Link.listed, identity]

/-- Which arcs are drawn does not depend on how blocks are called. -/
theorem linkOf_listed_map (labelling : Labelling) (c : Class) (m : Method) (a : Analysis) (arcs : List Arc) :
    (arcs.map (ofAnalysis labelling c m a).linkOf).map Link.listed =
      arcs.map (ofAnalysis .listing c m a).linkOf := by
  rw [List.map_map]
  exact List.map_congr_left fun arc _ => linkOf_listed labelling c m a arc

theorem flowLinks_listed (labelling : Labelling) (c : Class) (m : Method) (a : Analysis) :
    (ofAnalysis labelling c m a).flowLinks.map Link.listed = (ofAnalysis .listing c m a).flowLinks :=
  linkOf_listed_map labelling c m a _

theorem drawnControls_listed (labelling : Labelling) (c : Class) (m : Method) (a : Analysis) :
    (ofAnalysis labelling c m a).drawnControls.map Link.listed =
      (ofAnalysis .listing c m a).drawnControls := by
  have same (l : Labelling) : (ofAnalysis l c m a).analysis = a := rfl
  unfold drawnControls
  rw [same, same]
  cases Frontiers.compute a.partition.graph with
  | error e => rfl
  | ok frontiers => exact linkOf_listed_map labelling c m a _

theorem data_listed (labelling : Labelling) (c : Class) (m : Method) (a : Analysis) :
    (ofAnalysis labelling c m a).data.map Link.listed = (ofAnalysis .listing c m a).data :=
  linkOf_listed_map labelling c m a _

/-- The links of a method other than those of its constants. -/
def blockLinks (f : Frame) : List Link := f.flowLinks ++ f.drawnControls ++ f.data

/-- Blocks called by their listings are linked alike, and there are no constants. -/
theorem mem_links_listed (labelling : Labelling) (c : Class) (m : Method) (known : Body.Analyzed policy b a) :
    l ∈ (ofAnalysis .listing c m a).links ++ (ofAnalysis .listing c m a).data ↔
      l ∈ (ofAnalysis labelling c m a).blockLinks.map Link.listed := by
  have none : (ofAnalysis .listing c m a).allConstantLinks = [] := by
    apply List.eq_nil_iff_forall_not_mem.mpr
    intro l member
    obtain ⟨_, _, _, _, _, ⟨trees, _⟩, _⟩ := (mem_allConstantLinks known).mp member
    cases trees
  simp only [blockLinks, List.map_append, flowLinks_listed, drawnControls_listed, List.mem_append,
    data_listed, links, none, List.nil_append]

theorem not_touchesConstant {i j : Identity} {tag : String} (source : i.kind ≠ NodeKind.constant.name)
    (target : j.kind ≠ NodeKind.constant.name) : ¬Link.TouchesConstant ⟨i, j, tag⟩ :=
  fun touches => touches.elim source target

theorem entry_kind_ne_constant (f : Frame) : f.entry.kind ≠ NodeKind.constant.name := by
  change NodeKind.entry.name ≠ NodeKind.constant.name
  decide

theorem blockLinks_touch_nothing (known : Body.Analyzed policy b a)
    (member : l ∈ (ofAnalysis labelling c m a).blockLinks) : ¬l.TouchesConstant := by
  rcases List.mem_append.mp member with drawn | data
  · rcases List.mem_append.mp drawn with flow | control
    · cases (mem_flowLinks known).mp flow with
      | first _ => exact not_touchesConstant (entry_kind_ne_constant _) (node_kind_ne_constant _)
      | head _ _ => exact not_touchesConstant (entry_kind_ne_constant _) (node_kind_ne_constant _)
      | step _ _ => exact not_touchesConstant (node_kind_ne_constant _) (node_kind_ne_constant _)
    · obtain ⟨y, _, ⟨x, _, rfl⟩ | ⟨_, rfl⟩⟩ := (mem_drawnControls known).mp control
      · exact not_touchesConstant (node_kind_ne_constant _) (node_kind_ne_constant _)
      · exact not_touchesConstant (entry_kind_ne_constant _) (node_kind_ne_constant _)
  · obtain ⟨x, y, ty, k, _, _, rfl⟩ := mem_data known data
    exact not_touchesConstant (node_kind_ne_constant _) (node_kind_ne_constant _)

/-- What is left of the links of a method without its constants. -/
theorem mem_blockLinks (known : Body.Analyzed policy b a) :
    l ∈ (ofAnalysis labelling c m a).blockLinks ↔
      l ∈ (ofAnalysis labelling c m a).links ++
          (ofAnalysis labelling c m a).data ∧ ¬l.TouchesConstant := by
  constructor
  · intro member
    refine ⟨?_, blockLinks_touch_nothing known member⟩
    rw [links, List.append_assoc, List.append_assoc]
    rw [blockLinks, List.append_assoc] at member
    exact List.mem_append_right _ member
  · rintro ⟨member, free⟩
    rw [links, List.append_assoc, List.append_assoc] at member
    rcases List.mem_append.mp member with constant | block
    · obtain ⟨_, _, _, _, _, _, rfl | rfl⟩ := (mem_allConstantLinks known).mp constant
      · exact absurd (.inr rfl) free
      · exact absurd (.inl rfl) free
    · rw [blockLinks, List.append_assoc]
      exact block

end Frame

/-! ### Graphs -/

namespace Graph

variable {g h : Graph} {l : Link} {i : Identity} {k n : Nat} {e : Edge}

/-- One of the ends of the edge is a constant. -/
def TouchesConstant (g : Graph) (e : Edge) : Prop :=
  ∃ i, (g.identities[e.source]? = some i ∨ g.identities[e.target]? = some i) ∧
    i.kind = NodeKind.constant.name

/-- Where `h` has the node that is called by the listing of a node of `g`. -/
def listedIn (g h : Graph) (k : Nat) : Nat := (g.identities[k]?.bind fun i => h.idOf? i.listed).getD 0

theorem listedIn_eq (there : g.identities[k]? = some i) (found : h.idOf? i.listed = some n) :
    g.listedIn h k = n := by
  simp only [listedIn, there, Option.bind_some, found, Option.getD_some]

theorem touchesConstant_iff (stands : g.StandsFor e l) : g.TouchesConstant e ↔ l.TouchesConstant := by
  obtain ⟨source, target, _⟩ := stands
  simp only [TouchesConstant, source, target, Option.some.injEq, or_and_right, exists_or, exists_eq_left',
    Link.TouchesConstant]

/-- If `h` shows, by their listings, the links of `g` that leave constants alone, its edges are those of
`g` that do so, renumbered. -/
theorem mem_edges_listed (plain : h.Plain) (gPlain : g.Plain)
    (shown : ∀ l, h.Shows l ↔ ∃ l', (g.Shows l' ∧ ¬l'.TouchesConstant) ∧ l'.listed = l) (e : Edge) :
    e ∈ h.edges ↔ ∃ e' ∈ g.edges, ¬g.TouchesConstant e' ∧
      e = ⟨g.listedIn h e'.source, g.listedIn h e'.target, e'.tag⟩ := by
  constructor
  · intro member
    obtain ⟨l, there, source, target, tag⟩ := plain.mem_edges_iff.mp member
    obtain ⟨l', ⟨there', free⟩, rfl⟩ := (shown l).mp there
    obtain ⟨e', member', stands⟩ := shows_iff_standsFor.mp there'
    refine ⟨e', member', mt (touchesConstant_iff stands).mp free, ?_⟩
    obtain ⟨atSource, atTarget, sameTag⟩ := stands
    rw [listedIn_eq atSource source, listedIn_eq atTarget target, sameTag]
    exact congrArg (Edge.mk e.source e.target) tag.symm
  · rintro ⟨e', member', free, rfl⟩
    obtain ⟨l', there', source', target', tag'⟩ := gPlain.mem_edges_iff.mp member'
    have stands : g.StandsFor e' l' := ⟨gPlain.idOf?_iff.mp source', gPlain.idOf?_iff.mp target', tag'.symm⟩
    have there := (shown l'.listed).mpr ⟨l', ⟨there', mt (touchesConstant_iff stands).mpr free⟩, rfl⟩
    obtain ⟨e, member, source, target, tag⟩ := shows_iff_standsFor.mp there
    rw [listedIn_eq stands.1 (plain.idOf?_iff.mpr source), listedIn_eq stands.2.1 (plain.idOf?_iff.mpr target),
      ← tag', ← show e.tag = l'.tag from tag]
    exact member

end Graph

/-- A map of the nodes of one graph of a method to those of another: the entry goes to the entry, the node
of every block to the node of the same block, and the edges that leave constants alone to all edges. -/
structure Frame.Collapses (f f' : Frame) (g g' : Graph) (send : Nat → Nat) : Prop where
  entry : ∃ k, g.idOf? f.entry = some k ∧ g'.idOf? f'.entry = some (send k)
  block : ∀ x < f.blocks.length, ∃ k, g.idOf? (f.node x) = some k ∧ g'.idOf? (f'.node x) = some (send k)
  shared : ∀ x < f.blocks.length, ∀ y < f.blocks.length, g.idOf? (f.node x) = g.idOf? (f.node y) →
    g'.idOf? (f'.node x) = g'.idOf? (f'.node y)
  edges : ∀ e, e ∈ g'.edges ↔
    ∃ e' ∈ g.edges, ¬g.TouchesConstant e' ∧ e = ⟨send e'.source, send e'.target, e'.tag⟩

namespace Frame

variable {labelling : Labelling} {policy : Policy} {c : Class} {m : Method} {b : Body} {a : Analysis}
  {g h : Graph} {i : Identity} {k : Nat}

/-- What a method draws alone has all its nodes. -/
theorem idOf?_of_allNodes {f : Frame} (drawn : Graph.empty.Extends f.allNodes (f.links ++ f.data) g)
    (member : i ∈ f.allNodes) : ∃ k, g.idOf? i = some k := by
  have listed : i ∈ g.identities := by
    rw [drawn.identities]
    exact mem_enlistAll.mpr (.inr member)
  obtain ⟨k, there⟩ := List.mem_iff_getElem?.mp listed
  exact ⟨k, drawn.plain.idOf?_iff.mpr there⟩

theorem collapses (known : Body.Analyzed policy b a)
    (drawn : Graph.empty.Extends (ofAnalysis labelling c m a).allNodes
      ((ofAnalysis labelling c m a).links ++ (ofAnalysis labelling c m a).data) g)
    (drawn' : Graph.empty.Extends (ofAnalysis .listing c m a).allNodes
      ((ofAnalysis .listing c m a).links ++ (ofAnalysis .listing c m a).data) h) :
    Collapses (ofAnalysis labelling c m a) (ofAnalysis .listing c m a) g h (g.listedIn h) := by
  have sent {i : Identity} (member : i ∈ (ofAnalysis labelling c m a).allNodes)
      (member' : i.listed ∈ (ofAnalysis .listing c m a).allNodes) :
      ∃ k, g.idOf? i = some k ∧ h.idOf? i.listed = some (g.listedIn h k) := by
    obtain ⟨k, found⟩ := idOf?_of_allNodes drawn member
    obtain ⟨n, found'⟩ := idOf?_of_allNodes drawn' member'
    exact ⟨k, found, by rw [Graph.listedIn_eq (drawn.plain.idOf?_iff.mp found) found', found']⟩
  have block (x : Nat) (bound : x < a.blocks.length) :
      ∃ k, g.idOf? ((ofAnalysis labelling c m a).node x) = some k ∧
        h.idOf? ((ofAnalysis .listing c m a).node x) = some (g.listedIn h k) := by
    rw [← node_listed labelling]
    apply sent (node_mem_allNodes _ bound)
    rw [node_listed]
    exact node_mem_allNodes _ bound
  constructor
  case entry => exact sent (entry_mem_allNodes _) (entry_mem_allNodes _)
  case block => exact block
  case shared =>
    intro x xBound y yBound same
    obtain ⟨k, found, found'⟩ := block x xBound
    obtain ⟨n, other, other'⟩ := block y yBound
    obtain rfl := Option.some.inj (found.symm.trans (same.trans other))
    exact found'.trans other'.symm
  case edges =>
    apply Graph.mem_edges_listed drawn'.plain drawn.plain
    intro l
    simp only [drawn'.shows_iff, drawn.shows_iff, Graph.not_shows_empty, false_or, ← mem_blockLinks known,
      mem_links_listed labelling c m known, List.mem_map]

/-- Fewer nodes can only make fewer data dependences. -/
theorem card_data_listed (labelling : Labelling) (c : Class) (m : Method) (a : Analysis) :
    (ofAnalysis .listing c m a).data.toFinset.card ≤
      (ofAnalysis labelling c m a).data.toFinset.card := by
  have image : (ofAnalysis .listing c m a).data.toFinset =
      (ofAnalysis labelling c m a).data.toFinset.image Link.listed := by
    ext l
    simp only [← data_listed labelling c m a, List.mem_toFinset, List.mem_map, Finset.mem_image]
  rw [image]
  exact Finset.card_image_le

end Frame

/-- Built alone, a method called by its listings is the image of the same method under any labelling, its
constants left out. The reports agree but for the count of data dependences, which cannot be greater. -/
theorem listing_collapses_labelling (labelling : Labelling) (policy : Policy) (c : Class) (m : Method)
    (b : Body) (inRange : b.InRange) :
    let r := buildMethod labelling policy c m b .empty
    let r' := buildMethod .listing policy c m b .empty
    ∃ a report report' send, b.analyze policy = .ok a ∧ r.report = .ok report ∧ r'.report = .ok report' ∧
      (Frame.ofAnalysis labelling c m a).Collapses (Frame.ofAnalysis .listing c m a) r.graph r'.graph send ∧
      report' = { report with dataEdges := report'.dataEdges } ∧ report'.dataEdges ≤ report.dataEdges := by
  intro r r'
  obtain ⟨a, analyzed⟩ := Body.analyze_of_inRange policy inRange
  have known := Body.analyzed analyzed
  obtain ⟨n, built, drawn⟩ := buildMethod_extends labelling c m Graph.empty_plain analyzed
  obtain ⟨n', built', drawn'⟩ := buildMethod_extends .listing c m Graph.empty_plain analyzed
  obtain ⟨report, same, count⟩ := buildMethod_dataEdges labelling c m Graph.empty_plain analyzed
  obtain ⟨report', same', count'⟩ := buildMethod_dataEdges .listing c m Graph.empty_plain analyzed
  obtain rfl := Except.ok.inj (built.symm.trans same)
  obtain rfl := Except.ok.inj (built'.symm.trans same')
  refine ⟨a, _, _, _, analyzed, built, built', Frame.collapses known drawn drawn', ?_, ?_⟩
  · rfl
  · rw [count, count', Graph.shown_empty, Finset.sdiff_empty, Finset.sdiff_empty]
    exact Frame.card_data_listed labelling c m a

/-- One statement twice, its value used after one of them only, so that the trees differ and the listings
do not. -/
def lookalikes : Body where
  locals := [⟨"n", "int"⟩]
  code := [
    ⟨.branch (.localVar "n") 3, .zero⟩,
    ⟨.assign (.localVar "n") (.binary "+" (.localVar "n") (.constant "int" "1")), .zero⟩,
    ⟨.goto 0, .zero⟩,
    ⟨.assign (.localVar "n") (.binary "+" (.localVar "n") (.constant "int" "1")), .zero⟩,
    ⟨.ret none, .zero⟩]

theorem lookalikes_collapse : lookalikes.InRange ∧
    let r := buildMethod .trees .unit ⟨"p", "p.C", "C.java", []⟩ ⟨"m", "m()", 1, 2, none⟩ lookalikes .empty
    let r' := buildMethod .listing .unit ⟨"p", "p.C", "C.java", []⟩ ⟨"m", "m()", 1, 2, none⟩ lookalikes .empty
    (r.graph.nodeCount, r'.graph.nodeCount) = (7, 5) ∧
    (r.graph.edgeCount, r'.graph.edgeCount) = (18, 13) ∧
    ∃ a report report' send, lookalikes.analyze .unit = .ok a ∧ r.report = .ok report ∧
      r'.report = .ok report' ∧
      (Frame.ofAnalysis .trees ⟨"p", "p.C", "C.java", []⟩ ⟨"m", "m()", 1, 2, none⟩ a).Collapses
        (Frame.ofAnalysis .listing ⟨"p", "p.C", "C.java", []⟩ ⟨"m", "m()", 1, 2, none⟩ a) r.graph r'.graph send ∧
      report.dataEdges = 3 ∧ report' = { report with dataEdges := 2 } := by
  have inRange : lookalikes.InRange := by decide
  have computed :
      let r := buildMethod .trees .unit ⟨"p", "p.C", "C.java", []⟩ ⟨"m", "m()", 1, 2, none⟩ lookalikes .empty
      let r' := buildMethod .listing .unit ⟨"p", "p.C", "C.java", []⟩ ⟨"m", "m()", 1, 2, none⟩ lookalikes .empty
      (r.graph.nodeCount, r'.graph.nodeCount) = (7, 5) ∧
      (r.graph.edgeCount, r'.graph.edgeCount) = (18, 13) ∧
      r.report.toOption.map (·.dataEdges) = some 3 ∧ r'.report.toOption.map (·.dataEdges) = some 2 := by
    decide +kernel
  obtain ⟨nodes, edges, count, count'⟩ := computed
  obtain ⟨a, report, report', send, analyzed, built, built', collapses, same, _⟩ :=
    listing_collapses_labelling .trees .unit ⟨"p", "p.C", "C.java", []⟩ ⟨"m", "m()", 1, 2, none⟩
      lookalikes inRange
  rw [built] at count
  rw [built'] at count'
  have fewer : report'.dataEdges = 2 := Option.some.inj count'
  rw [fewer] at same
  exact ⟨inRange, nodes, edges, a, report, report', send, analyzed, built, built', collapses,
    Option.some.inj count, same⟩

end ProgramDependence
