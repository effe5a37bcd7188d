import ProgramDependence.Proofs.Graph.Shown
import ProgramDependence.Proofs.Method.ControlDependence
import ProgramDependence.Proofs.Method.ControlFlow
import ProgramDependence.Proofs.Method.DataDependence

/-! What the links of a method join. Both ends are nodes of that method, none leads to the entry, and only
the entry leads to a constant. Data dependences between blocks differ from all other links in their tag
or their source, so they are counted apart from these. -/
namespace ProgramDependence

/-- The two nodes belong to one method of one class. -/
structure Identity.SameMethod (i j : Identity) : Prop where
  package : i.package = j.package
  className : i.className = j.className
  sourceFile : i.sourceFile = j.sourceFile
  method : i.method = j.method

/-- Made for this method. -/
def Identity.MadeFor (c : Class) (m : Method) (i : Identity) : Prop :=
  ∃ kind label extra span, i = .within c m kind label extra span

theorem Identity.MadeFor.sameMethod {c : Class} {m : Method} {i j : Identity} (first : i.MadeFor c m)
    (second : j.MadeFor c m) : i.SameMethod j := by
  obtain ⟨_, _, _, _, rfl⟩ := first
  obtain ⟨_, _, _, _, rfl⟩ := second
  exact ⟨rfl, rfl, rfl, rfl⟩

namespace Link

/-- Inside the method, not to its entry, and to a constant only as its dependence on the entry. -/
structure Regular (c : Class) (m : Method) (l : Link) : Prop where
  source : l.source.MadeFor c m
  target : l.target.MadeFor c m
  notToEntry : l.target.kind ≠ NodeKind.entry.name
  toConstant : l.target.kind = NodeKind.constant.name →
    l.tag = controlTag ∧ l.source.kind = NodeKind.entry.name

/-- A data dependence between blocks. -/
def IsData (l : Link) : Prop :=
  l.tag ≠ flowTag ∧ l.tag ≠ controlTag ∧ l.source.kind ≠ NodeKind.constant.name

instance : DecidablePred IsData := fun l =>
  inferInstanceAs (Decidable (l.tag ≠ flowTag ∧ l.tag ≠ controlTag ∧
    l.source.kind ≠ NodeKind.constant.name))

end Link

namespace Frame

variable {labelling : Labelling} {policy : Policy} {c : Class} {m : Method} {b : Body} {a : Analysis}
  {l : Link} {i : Identity} {k : Nat}

/-! ### Nodes -/

theorem entry_madeFor (c : Class) (m : Method) : (Identity.entry c m).MadeFor c m := ⟨_, _, _, _, rfl⟩

/-- A number stands for its block, and past the last block for the entry. -/
theorem node_eq (labelling : Labelling) (c : Class) (m : Method) (a : Analysis) (k : Nat) :
    (ofAnalysis labelling c m a).node k =
      (a.blocks[k]?.map (a.blockNode labelling c m)).getD (.entry c m) := by
  simp only [node, nodes, List.getD_eq_getElem?_getD, List.getElem?_map]
  rfl

theorem node_kind_ne_constant (k : Nat) :
    ((ofAnalysis labelling c m a).node k).kind ≠ NodeKind.constant.name := by
  rw [node_eq]
  cases a.blocks[k]? with
  | none =>
    change NodeKind.entry.name ≠ NodeKind.constant.name
    decide
  | some block => exact (Analysis.kindOf_ne _).2

theorem node_kind_ne_entry (bound : k < a.blocks.length) :
    ((ofAnalysis labelling c m a).node k).kind ≠ NodeKind.entry.name := by
  rw [node_eq, List.getElem?_eq_getElem bound]
  exact (Analysis.kindOf_ne _).1

theorem entry_mem_allNodes (f : Frame) : f.entry ∈ f.allNodes := List.mem_cons_self

theorem nodesOf_mem_allNodes {f : Frame} {block : Block} (there : f.blocks[k]? = some block)
    (member : i ∈ f.nodesOf block) : i ∈ f.allNodes :=
  List.mem_cons_of_mem _ (List.mem_flatMap.mpr ⟨block, List.mem_of_getElem? there, member⟩)

theorem node_mem_allNodes (f : Frame) (bound : k < f.blocks.length) : f.node k ∈ f.allNodes := by
  have there := List.getElem?_eq_getElem bound
  rw [node_of_block there]
  exact nodesOf_mem_allNodes there List.mem_cons_self

theorem constantNode_mem_allNodes (known : Body.Analyzed policy b a) {k j : Nat} {instruction : Instruction}
    {ty text : String} (hoists : (ofAnalysis labelling c m a).Hoists j k instruction ty text) :
    j < b.size ∧
      (ofAnalysis labelling c m a).constantNode instruction ty text ∈ (ofAnalysis labelling c m a).allNodes := by
  have bound : j < b.size := by
    have there := hoists.2.1
    rw [show (ofAnalysis labelling c m a).analysis = a from rfl, known.body] at there
    exact (List.getElem?_eq_some_iff.mp there).1
  obtain ⟨block, there, inside⟩ := known.owner_block bound
  refine ⟨bound, nodesOf_mem_allNodes there (List.mem_cons_of_mem _ ?_)⟩
  exact List.mem_map.mpr ⟨_, mem_constantsIn.mpr ⟨j, k, _, _, _, inside, hoists, rfl⟩, rfl⟩

theorem allNodes_madeFor (member : i ∈ (ofAnalysis labelling c m a).allNodes) : i.MadeFor c m := by
  simp only [allNodes, nodesOf, List.mem_cons, List.mem_flatMap, List.mem_map, Prod.exists] at member
  rcases member with rfl | ⟨block, _, rfl | ⟨constant, tag, listed, rfl⟩⟩
  · exact entry_madeFor c m
  · exact ⟨_, _, _, _, rfl⟩
  · obtain ⟨_, _, _, _, _, _, _, same⟩ := mem_constantsIn.mp listed
    obtain ⟨rfl, _⟩ := Prod.mk.inj same
    exact ⟨_, _, _, _, rfl⟩

/-! ### Links -/

/-- Between nodes of the method, not to its entry, and to a constant only as its dependence on the entry. -/
structure Joins (f : Frame) (l : Link) : Prop where
  source : l.source ∈ f.allNodes
  target : l.target ∈ f.allNodes
  notToEntry : l.target.kind ≠ NodeKind.entry.name
  toConstant : l.target.kind = NodeKind.constant.name →
    l.tag = controlTag ∧ l.source.kind = NodeKind.entry.name

theorem Joins.regular (joins : (ofAnalysis labelling c m a).Joins l) : l.Regular c m :=
  ⟨allNodes_madeFor joins.source, allNodes_madeFor joins.target, joins.notToEntry, joins.toConstant⟩

theorem joins_block (source : i ∈ (ofAnalysis labelling c m a).allNodes) (bound : k < a.blocks.length)
    (tag : String) :
    (ofAnalysis labelling c m a).Joins ⟨i, (ofAnalysis labelling c m a).node k, tag⟩ where
  source := source
  target := node_mem_allNodes _ bound
  notToEntry := node_kind_ne_entry bound
  toConstant same := absurd same (node_kind_ne_constant k)

theorem owner_lt_blocks (known : Body.Analyzed policy b a) {i : Nat} (bound : i < b.size) :
    a.partition.owner i < a.blocks.length :=
  known.tiles.owner_lt bound

theorem constantLinks_join (known : Body.Analyzed policy b a)
    (member : l ∈ (ofAnalysis labelling c m a).allConstantLinks) : (ofAnalysis labelling c m a).Joins l := by
  obtain ⟨i, k, instruction, ty, text, hoists, links⟩ := (mem_allConstantLinks known).mp member
  obtain ⟨bound, constant⟩ := constantNode_mem_allNodes known hoists
  rcases links with rfl | rfl
  · constructor
    · exact entry_mem_allNodes _
    · exact constant
    · change NodeKind.constant.name ≠ NodeKind.entry.name
      decide
    · intro _
      exact ⟨rfl, rfl⟩
  · exact joins_block constant (owner_lt_blocks known bound) _

theorem flowLinks_join (known : Body.Analyzed policy b a)
    (member : l ∈ (ofAnalysis labelling c m a).flowLinks) : (ofAnalysis labelling c m a).Joins l := by
  cases (mem_flowLinks known).mp member with
  | first nonempty => exact joins_block (entry_mem_allNodes _) (owner_lt_blocks known nonempty) _
  | head there _ => exact joins_block (entry_mem_allNodes _) (List.getElem?_eq_some_iff.mp there).1 _
  | step edge _ =>
    have size : a.flow.size = b.size := Body.flow_size known.flow
    apply joins_block (node_mem_allNodes _ (owner_lt_blocks known (size ▸ Digraph.lt_of_mem_succs edge)))
    exact owner_lt_blocks known (size ▸ known.closed _ _ edge)

theorem drawnControls_join (known : Body.Analyzed policy b a)
    (member : l ∈ (ofAnalysis labelling c m a).drawnControls) : (ofAnalysis labelling c m a).Joins l := by
  obtain ⟨y, free, controls⟩ := (mem_drawnControls known).mp member
  have bound : y < a.blocks.length := by
    rw [← known.graph_size]
    exact Digraph.lt_of_not_stuck free
  rcases controls with ⟨x, governs, rfl⟩ | ⟨_, rfl⟩
  · obtain ⟨⟨s, edge, _⟩, _⟩ := governs
    have inside : x < a.blocks.length := known.graph_size ▸ Digraph.lt_of_mem_succs edge
    exact joins_block (node_mem_allNodes _ inside) bound _
  · exact joins_block (entry_mem_allNodes _) bound _

theorem mem_data (known : Body.Analyzed policy b a)
    (member : l ∈ (ofAnalysis labelling c m a).data) :
    ∃ x y ty k, x < a.blocks.length ∧ y < a.blocks.length ∧
      l = ⟨(ofAnalysis labelling c m a).node x, (ofAnalysis labelling c m a).node y, dataTag ty k⟩ := by
  obtain ⟨name, d, u, k, s, ⟨_, _, _, walk, _⟩, _, there, _, same⟩ := (mem_data_supplies known).mp member
  have written : d < b.size := Body.flow_size known.flow ▸ walk.start_lt
  have read : u < b.size := by
    rw [← Body.length_stmts]
    exact (List.getElem?_eq_some_iff.mp there).1
  exact ⟨_, _, _, _, owner_lt_blocks known written, owner_lt_blocks known read, same⟩

/-- No link of a method is left without a node at either end. -/
theorem links_join (known : Body.Analyzed policy b a)
    (member : l ∈ (ofAnalysis labelling c m a).links ++ (ofAnalysis labelling c m a).data) :
    (ofAnalysis labelling c m a).Joins l := by
  rw [links] at member
  rcases List.mem_append.mp member with drawn | data
  · rcases List.mem_append.mp drawn with early | control
    · rcases List.mem_append.mp early with constant | flow
      · exact constantLinks_join known constant
      · exact flowLinks_join known flow
    · exact drawnControls_join known control
  · obtain ⟨x, y, ty, k, inside, bound, rfl⟩ := mem_data known data
    exact joins_block (node_mem_allNodes _ inside) bound _

/-! ### Data dependences -/

theorem isData_of_data (known : Body.Analyzed policy b a)
    (member : l ∈ (ofAnalysis labelling c m a).data) : l.IsData := by
  obtain ⟨x, y, ty, k, _, _, rfl⟩ := mem_data known member
  exact ⟨(dataTag_ne ty k).1, (dataTag_ne ty k).2, node_kind_ne_constant x⟩

theorem not_isData_of_links (known : Body.Analyzed policy b a)
    (member : l ∈ (ofAnalysis labelling c m a).links) : ¬l.IsData := by
  intro isData
  rw [links] at member
  rcases List.mem_append.mp member with early | control
  · rcases List.mem_append.mp early with constant | flow
    · obtain ⟨_, _, _, _, _, _, rfl | rfl⟩ := (mem_allConstantLinks known).mp constant
      · exact isData.2.1 rfl
      · exact isData.2.2 rfl
    · exact isData.1 (flowLinks_tag flow)
  · exact isData.2.1 (drawnControls_tag control)

theorem links_filter_isData (known : Body.Analyzed policy b a) :
    ((ofAnalysis labelling c m a).links ++
        (ofAnalysis labelling c m a).data).toFinset.filter Link.IsData =
      (ofAnalysis labelling c m a).data.toFinset := by
  ext l
  simp only [Finset.mem_filter, List.mem_toFinset, List.mem_append]
  constructor
  · rintro ⟨link | data, isData⟩
    · exact absurd isData (not_isData_of_links known link)
    · exact data
  · intro data
    exact ⟨.inr data, isData_of_data known data⟩

end Frame

/-- The data dependences that a method adds to a graph, counted. -/
theorem buildMethod_dataEdges (labelling : Labelling) (c : Class) (m : Method) {policy : Policy}
    {body : Body} {a : Analysis} {g : Graph} (plain : g.Plain) (analyzed : body.analyze policy = .ok a) :
    ∃ report, (buildMethod labelling policy c m body g).report = .ok report ∧
      report.dataEdges =
        ((Frame.ofAnalysis labelling c m a).data.toFinset \ g.shown).card := by
  have known := Body.analyzed analyzed
  obtain ⟨linked, n, report, links, data, count⟩ := buildMethod_runs labelling c m g analyzed
  have before := links.extension plain
  have total := (data.extension before.plain).edgeCount_eq before.plain
  refine ⟨_, report, ?_⟩
  have new : n = ((Frame.ofAnalysis labelling c m a).data.toFinset \ linked.shown).card := by
    have counted := count before.plain
    omega
  rw [before.shown] at new
  refine new.trans (congrArg Finset.card ?_)
  -- a data dependence is none of the links added before it
  ext l
  simp only [Finset.mem_sdiff, List.mem_toFinset, Finset.mem_union, not_or, and_congr_right_iff, and_iff_left_iff_imp]
  intro data _ link
  exact Frame.not_isData_of_links known link (Frame.isData_of_data known data)

end ProgramDependence
