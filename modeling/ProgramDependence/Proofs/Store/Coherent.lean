import Std.Data.HashMap.Lemmas
import ProgramDependence.Proofs.Store.Edges

/-! The tables of a store agree with each other, and the store holds the graph of its nodes and edges:
each operation on it keeps the tables in agreement and does to that graph what the operation of the same
name on graphs does. -/
namespace ProgramDependence.Store

variable {s s' : Store} {i : Identity} {id source target k : Nat} {label tag text : String}

/-- Every node shows a label of the table, and both indices are exact: that of labels both ways, that of
identities up to the first node with each. -/
structure Coherent (s : Store) : Prop where
  labelled : ∀ node ∈ s.nodes.toList, node.label < s.labels.size
  labelIndex : ∀ (text : String) (k : Nat), s.labelIndex[text]? = some k ↔ s.labels[k]? = some text
  index : ∀ i : Identity, s.index[i]? = (s.nodes.toList.map (·.identity)).findIdx? (· = i)

/-- The graph that a store holds. -/
def graph (s : Store) : Graph := ⟨s.vertices, s.edges⟩

theorem empty_coherent : Coherent empty where
  labelled := by simp [empty]
  labelIndex := by simp [empty]
  index := by simp [empty]

theorem empty_graph : empty.graph = Graph.empty := rfl

/-! ### Reading -/

theorem nodeCount_graph (s : Store) : s.graph.nodeCount = s.nodeCount := by
  simp [graph, vertices, Graph.nodeCount, nodeCount]

theorem vertex_graph (s : Store) (id : Nat) : s.graph.vertices[id]? =
    s.nodes[id]?.map fun node => ⟨node.identity, s.textOf node.label⟩ := by
  simp [graph, vertices]

theorem label_graph (s : Store) (id : Nat) : s.graph.label id = s.label id := by
  rw [Graph.label, Graph.vertex, vertex_graph, Store.label]
  cases s.nodes[id]? <;> rfl

theorem view_graph (s : Store) (id : Nat) : s.graph.view id = s.view id := by
  rw [Graph.view, Graph.vertex, vertex_graph, Store.view]
  cases s.nodes[id]? <;> rfl

theorem Coherent.idOf?_graph (coherent : Coherent s) (i : Identity) : s.graph.idOf? i = s.index[i]? := by
  rw [coherent.index, Graph.idOf?, graph, vertices, List.findIdx?_map, List.findIdx?_map]
  rfl

/-! ### Labels -/

/-- What comes of looking a label up: it has the number, and no other label lost its own. -/
structure Interns (s : Store) (text : String) (r : Store × Nat) : Prop where
  nodes : r.1.nodes = s.nodes
  index : r.1.index = s.index
  links : r.1.links = s.links
  found : r.1.labels[r.2]? = some text
  kept : ∀ (k : Nat) (t : String), s.labels[k]? = some t → r.1.labels[k]? = some t
  labelIndex : ∀ (t : String) (k : Nat), r.1.labelIndex[t]? = some k ↔ r.1.labels[k]? = some t

theorem internLabel_interns (coherent : Coherent s) (text : String) :
    Interns s text (s.internLabel text) := by
  unfold internLabel
  split
  next number found =>
    exact ⟨rfl, rfl, rfl, (coherent.labelIndex _ _).mp found, fun _ _ there => there, coherent.labelIndex⟩
  next absent =>
    constructor
    case nodes => rfl
    case index => rfl
    case links => rfl
    case found => simp
    case kept =>
      intro k t there
      have bound := (Array.getElem?_eq_some_iff.mp there).1
      rw [Array.getElem?_push_lt bound, ← there, Array.getElem?_eq_getElem bound]
    case labelIndex =>
      intro t k
      simp only [Std.HashMap.getElem?_insert, Array.getElem?_push, beq_iff_eq]
      have unlisted (k : Nat) : s.labels[k]? ≠ some text := fun there => by
        rw [(coherent.labelIndex _ _).mpr there] at absent
        cases absent
      by_cases same : text = t
      · subst same
        by_cases last : k = s.labels.size
        · simp [last]
        · simp [last, unlisted, Ne.symm last]
      · by_cases last : k = s.labels.size
        · simp [last, same, coherent.labelIndex]
        · simp [last, same, coherent.labelIndex]

theorem textOf_of_get (there : s.labels[k]? = some text) : s.textOf k = text := by
  simp [textOf, there]

/-- Labels keep their texts. -/
theorem Interns.textOf {r : Store × Nat} (interns : Interns s text r) (bound : k < s.labels.size) :
    r.1.textOf k = s.textOf k := by
  have there := Array.getElem?_eq_getElem bound
  rw [textOf_of_get there, textOf_of_get (interns.kept k _ there)]

theorem Interns.lt {r : Store × Nat} (interns : Interns s text r) (bound : k < s.labels.size) :
    k < r.1.labels.size := by
  have there := interns.kept k _ (Array.getElem?_eq_getElem bound)
  exact (Array.getElem?_eq_some_iff.mp there).1

theorem Interns.vertices {r : Store × Nat} (interns : Interns s text r) (coherent : Coherent s) :
    r.1.vertices = s.vertices := by
  rw [Store.vertices, interns.nodes]
  refine List.map_congr_left fun node member => ?_
  rw [interns.textOf (coherent.labelled node member)]

/-! ### Nodes -/

theorem push_spec (coherent : Coherent s) (i : Identity) :
    Coherent (s.push i).1 ∧ (s.push i).1.graph = s.graph.push i ∧ (s.push i).2 = s.nodeCount := by
  have interns := internLabel_interns coherent i.label
  have shown := interns.vertices coherent
  have number : (s.internLabel i.label).2 < (s.internLabel i.label).1.labels.size :=
    (Array.getElem?_eq_some_iff.mp interns.found).1
  refine ⟨?_, ?_, rfl⟩
  · constructor
    case labelled =>
      intro node member
      simp only [push, interns.nodes, Array.toList_push, List.mem_append, List.mem_singleton] at member
      rcases member with old | rfl
      · exact interns.lt (coherent.labelled node old)
      · exact number
    case labelIndex => exact interns.labelIndex
    case index =>
      intro j
      have known := coherent.index j
      simp only [push, interns.nodes, interns.index, Array.toList_push, List.map_append,
        List.findIdx?_append, Std.HashMap.getElem?_insertIfNew, beq_iff_eq, ← known]
      by_cases same : i = j
      · subst same
        cases found : s.index[i]? with
        | some id => simp [Std.HashMap.mem_iff_isSome_getElem?, found]
        | none => simp [Std.HashMap.mem_iff_isSome_getElem?, found]
      · cases s.index[j]? <;> simp [same]
  · have edges : (s.push i).1.edges = s.edges := congrArg Tags.edges interns.links
    have last : (s.push i).1.textOf (s.internLabel i.label).2 = i.label := textOf_of_get interns.found
    have vertices : (s.push i).1.vertices = s.vertices ++ [⟨i, i.label⟩] := by
      calc (s.push i).1.vertices
          = (s.internLabel i.label).1.vertices ++ [⟨i, (s.push i).1.textOf (s.internLabel i.label).2⟩] := by
            rw [Store.vertices, push, Array.toList_push, List.map_append]
            rfl
        _ = s.vertices ++ [⟨i, i.label⟩] := by rw [shown, last]
    rw [graph, edges, vertices]
    rfl

theorem addNode_spec (coherent : Coherent s) (i : Identity) :
    Coherent (s.addNode i).1 ∧ (s.addNode i).1.graph = (s.graph.intern i).1 ∧
      (s.addNode i).2 = (s.graph.intern i).2 := by
  simp only [addNode, Graph.intern, coherent.idOf?_graph]
  cases s.index[i]? with
  | some id => exact ⟨coherent, rfl, rfl⟩
  | none =>
    obtain ⟨kept, graph, id⟩ := push_spec coherent i
    exact ⟨kept, graph, id.trans (nodeCount_graph s).symm⟩

theorem setLabel_of_lt (coherent : Coherent s) (label : String) (bound : id < s.nodeCount) :
    ∃ s', setLabel id label s = .ok () s' ∧ Coherent s' ∧ s.graph.relabel id label = .ok s'.graph := by
  have interns := internLabel_interns coherent label
  have shown := interns.vertices coherent
  have number : (s.internLabel label).2 < (s.internLabel label).1.labels.size :=
    (Array.getElem?_eq_some_iff.mp interns.found).1
  let relabelled (node : Node) : Node := { node with label := (s.internLabel label).2 }
  refine ⟨{ (s.internLabel label).1 with nodes := s.nodes.modify id relabelled }, ?_, ?_, ?_⟩
  · simp only [setLabel, if_neg (Nat.not_le.mpr bound), interns.nodes]
    rfl
  · constructor
    case labelled =>
      intro node member
      obtain ⟨k, there⟩ := List.mem_iff_getElem?.mp member
      simp only [Array.toList_modify, List.getElem?_modify] at there
      obtain ⟨old, listed, rfl⟩ := Option.map_eq_some_iff.mp there
      split
      · exact number
      · exact interns.lt (coherent.labelled old (List.mem_of_getElem? listed))
    case labelIndex => exact interns.labelIndex
    case index =>
      have same : (s.nodes.modify id relabelled).toList.map (·.identity) =
          s.nodes.toList.map (·.identity) := by
        apply List.ext_getElem?
        intro k
        simp only [Array.toList_modify, List.getElem?_map, List.getElem?_modify]
        cases s.nodes.toList[k]? with
        | none => rfl
        | some node => by_cases here : id = k <;> simp [here, relabelled]
      intro i
      rw [same, ← coherent.index, ← interns.index]
  · have there : s.nodes.toList[id]? = some s.nodes.toList[id] := List.getElem?_eq_getElem bound
    rw [Graph.relabel, vertex_graph, ← Array.getElem?_toList, there]
    refine congrArg Except.ok (congrArg₂ Graph.mk ?_ (congrArg Tags.edges interns.links).symm)
    change s.vertices.set id _ = _
    rw [← shown]
    apply List.ext_getElem?
    intro k
    have text : (s.internLabel label).1.textOf (s.internLabel label).2 = label := textOf_of_get interns.found
    simp only [List.getElem?_set, Store.vertices, Array.toList_modify, List.getElem?_map,
      List.getElem?_modify, interns.nodes, List.length_map]
    by_cases here : id = k
    · subst here
      rw [there]
      simpa [relabelled] using ⟨bound, text.symm⟩
    · simp only [if_neg here]
      cases s.nodes.toList[k]? <;> rfl

theorem addEdge_of_lt (coherent : Coherent s) (tag : String) (hs : source < s.nodeCount)
    (ht : target < s.nodeCount) :
    ∃ s', addEdge source target tag s = .ok () s' ∧ Coherent s' ∧
      s.graph.addEdge source target tag = .ok s'.graph := by
  refine ⟨{ s with links := s.links.link source target tag }, ?_, ?_, ?_⟩
  · simp only [addEdge, if_neg (Nat.not_le.mpr hs), if_neg (Nat.not_le.mpr ht)]
  · exact ⟨coherent.labelled, coherent.labelIndex, coherent.index⟩
  · rw [← nodeCount_graph] at hs ht
    rw [Graph.addEdge_of_lt _ _ hs ht]
    simp only [graph, edges, Tags.edges_link]
    rfl

end ProgramDependence.Store
