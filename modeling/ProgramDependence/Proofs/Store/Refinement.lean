import ProgramDependence.Graph.Merge
import ProgramDependence.Proofs.Graph.Visit
import ProgramDependence.Proofs.Store.Coherent

/-! Every operation on a store refines the operation on graphs: both fail alike or both succeed with the
same result, and the store that is left is coherent, also after a failure. Merging, slicing, reading and
writing go by the same steps in the same order, so they are compared step by step. -/
namespace ProgramDependence.Store

variable {s : Store}

/-! ### Operations in place -/

/-- The store that an operation leaves, whether or not it failed. -/
def left : EStateM.Result GraphError Store α → Store
  | .ok _ s => s
  | .error _ s => s

/-- What an operation comes to, with the graph for the store. -/
def seen : EStateM.Result GraphError Store α → Except GraphError (Graph × α)
  | .ok x s => .ok (s.graph, x)
  | .error e _ => .error e

/-- On coherent stores, the action does to the graph what `f` does to it. -/
structure Refines (a : Action α) (f : Graph → Except GraphError (Graph × α)) : Prop where
  coherent : ∀ s, Coherent s → Coherent (left (a s))
  seen : ∀ s, Coherent s → seen (a s) = f s.graph

theorem Refines.of_eq {a : Action α} {f f' : Graph → Except GraphError (Graph × α)} (refines : Refines a f)
    (same : ∀ g, f g = f' g) : Refines a f' :=
  ⟨refines.coherent, fun s coherent => (refines.seen s coherent).trans (same s.graph)⟩

theorem refines_pure (x : α) : Refines (pure x) fun g => .ok (g, x) := ⟨fun _ => id, fun _ _ => rfl⟩

theorem refines_throw (e : GraphError) : Refines (throw e : Action α) fun _ => .error e :=
  ⟨fun _ => id, fun _ _ => rfl⟩

theorem Refines.bind {a : Action α} {b : α → Action β} {f : Graph → Except GraphError (Graph × α)}
    {h : α → Graph → Except GraphError (Graph × β)} (first : Refines a f) (next : ∀ x, Refines (b x) (h x)) :
    Refines (a >>= b) fun g => f g >>= fun r => h r.2 r.1 := by
  have run (s : Store) : (a >>= b) s = EStateM.bind a b s := rfl
  constructor
  case coherent =>
    intro s coherent
    have kept := first.coherent s coherent
    rw [run, EStateM.bind]
    cases done : a s with
    | ok x s' => exact (next x).coherent s' (by simpa [done, left] using kept)
    | error e s' => simpa [done, left] using kept
  case seen =>
    intro s coherent
    have kept := first.coherent s coherent
    have same := first.seen s coherent
    rw [run, EStateM.bind]
    cases done : a s with
    | ok x s' =>
      rw [done] at kept same
      simp only [← same]
      exact (next x).seen s' kept
    | error e s' =>
      rw [done] at same
      simp only [← same]
      rfl

/-- One step of a run that lists its results. -/
def collect (f : β → Graph → Except GraphError (Graph × α)) (m : Graph × List α) (x : β) :
    Except GraphError (Graph × List α) :=
  f x m.1 >>= fun r => .ok (r.1, m.2 ++ [r.2])

theorem collect_from (f : β → Graph → Except GraphError (Graph × α)) (xs : List β) (g : Graph)
    (before : List α) : xs.foldlM (collect f) (g, before) =
      (xs.foldlM (collect f) (g, [])).map fun m => (m.1, before ++ m.2) := by
  induction xs generalizing g before with
  | nil => exact congrArg (fun ys => Except.ok (g, ys)) (List.append_nil before).symm
  | cons x xs ih =>
    simp only [List.foldlM_cons, collect]
    cases f x g with
    | error e => rfl
    | ok r =>
      change xs.foldlM (collect f) (r.1, before ++ [r.2]) =
        (xs.foldlM (collect f) (r.1, [r.2])).map _
      rw [ih r.1 (before ++ [r.2]), ih r.1 [r.2]]
      cases xs.foldlM (collect f) (r.1, []) with
      | error e => rfl
      | ok m => simp [Except.map]

theorem refines_mapM {a : β → Action α} {f : β → Graph → Except GraphError (Graph × α)}
    (each : ∀ x, Refines (a x) (f x)) (xs : List β) :
    Refines (xs.mapM a) fun g => xs.foldlM (collect f) (g, []) := by
  induction xs with
  | nil => exact refines_pure []
  | cons x xs ih =>
    rw [List.mapM_cons]
    refine ((each x).bind fun y => ih.bind fun ys => refines_pure (y :: ys)).of_eq fun g => ?_
    rw [List.foldlM_cons, collect]
    cases f x g with
    | error e => rfl
    | ok r =>
      change (xs.foldlM (collect f) (r.1, []) >>= fun m => .ok (m.1, r.2 :: m.2)) =
        xs.foldlM (collect f) (r.1, [r.2])
      rw [collect_from f xs r.1 [r.2]]
      cases xs.foldlM (collect f) (r.1, []) <;> rfl

theorem refines_forM {a : β → Action Unit} {f : β → Graph → Except GraphError Graph}
    (each : ∀ x, Refines (a x) fun g => (f x g).map (·, ())) (xs : List β) :
    Refines (xs.forM a) fun g => (xs.foldlM (fun g x => f x g) g).map (·, ()) := by
  induction xs with
  | nil => exact refines_pure ()
  | cons x xs ih =>
    refine ((each x).bind fun _ => ih).of_eq fun g => ?_
    rw [List.foldlM_cons]
    cases f x g <;> rfl

theorem addNode_refines (i : Identity) :
    Refines (modifyGet fun s => (s.addNode i).swap) fun g => .ok (g.intern i) := by
  constructor
  case coherent => exact fun s coherent => (addNode_spec coherent i).1
  case seen =>
    intro s coherent
    obtain ⟨_, graph, id⟩ := addNode_spec coherent i
    exact congrArg Except.ok (Prod.ext graph id)

theorem setLabel_refines (id : Nat) (label : String) :
    Refines (setLabel id label) fun g => (g.relabel id label).map (·, ()) := by
  have both (s : Store) (coherent : Coherent s) : Coherent (left (setLabel id label s)) ∧
      Store.seen (setLabel id label s) = (s.graph.relabel id label).map (·, ()) := by
    by_cases bound : id < s.nodeCount
    · obtain ⟨s', done, kept, relabelled⟩ := setLabel_of_lt coherent label bound
      rw [done, relabelled]
      exact ⟨kept, rfl⟩
    · have past : s.nodeCount ≤ id := Nat.le_of_not_lt bound
      have none : s.graph.vertices[id]? = none := by
        rw [List.getElem?_eq_none_iff]
        exact Nat.le_trans (Nat.le_of_eq (nodeCount_graph s)) past
      simp only [setLabel, if_pos past, Graph.relabel, none]
      exact ⟨coherent, rfl⟩
  exact ⟨fun s coherent => (both s coherent).1, fun s coherent => (both s coherent).2⟩

theorem addEdge_refines (source target : Nat) (tag : String) :
    Refines (addEdge source target tag) fun g => (g.addEdge source target tag).map (·, ()) := by
  have both (s : Store) (coherent : Coherent s) : Coherent (left (addEdge source target tag s)) ∧
      Store.seen (addEdge source target tag s) = (s.graph.addEdge source target tag).map (·, ()) := by
    by_cases first : s.nodeCount ≤ source
    · simp only [addEdge, Graph.addEdge, nodeCount_graph, if_pos first]
      exact ⟨coherent, rfl⟩
    · by_cases second : s.nodeCount ≤ target
      · simp only [addEdge, Graph.addEdge, nodeCount_graph, if_neg first, if_pos second]
        exact ⟨coherent, rfl⟩
      · obtain ⟨s', done, kept, added⟩ :=
          addEdge_of_lt coherent tag (Nat.lt_of_not_le first) (Nat.lt_of_not_le second)
        rw [done, added]
        exact ⟨kept, rfl⟩
  exact ⟨fun s coherent => (both s coherent).1, fun s coherent => (both s coherent).2⟩

/-! ### Absorbing -/

theorem showLabel_refines (id : Nat) (made shown : String) : Refines (showLabel id made shown) fun g =>
    if made = shown then .ok (g, ()) else (g.relabel id shown).map (·, ()) := by
  unfold showLabel
  split
  · exact refines_pure ()
  · exact setLabel_refines id shown

/-- A graph with a vertex absorbed, and the number of that vertex. -/
def place (v : Vertex) (g : Graph) : Except GraphError (Graph × Nat) :=
  if v.identity.label = v.label then .ok (g.intern v.identity)
  else ((g.intern v.identity).1.relabel (g.intern v.identity).2 v.label).map (·, (g.intern v.identity).2)

theorem absorbVertex_eq_collect : Graph.absorbVertex = collect place := by
  funext m v
  simp only [Graph.absorbVertex, collect, place]
  split
  · rfl
  · cases (m.1.intern v.identity).1.relabel (m.1.intern v.identity).2 v.label <;> rfl

theorem absorbNode_refines (fragment : Store) (node : Node) :
    Refines (absorbNode fragment node) (place ⟨node.identity, fragment.textOf node.label⟩) := by
  refine ((addNode_refines node.identity).bind fun id =>
    (showLabel_refines id node.identity.label (fragment.textOf node.label)).bind fun _ =>
      refines_pure id).of_eq fun g => ?_
  change (if _ then _ else _) >>= _ = place _ g
  unfold place
  split
  · rfl
  · cases (g.intern node.identity).1.relabel (g.intern node.identity).2 (fragment.textOf node.label) <;>
      rfl

theorem absorbEdge_refines (places : List Nat) (e : Edge) : Refines (absorbEdge places e) fun g =>
    (Graph.absorbEdge places g e).map (·, ()) := by
  unfold absorbEdge Graph.absorbEdge
  cases places[e.source]? with
  | none => exact refines_throw _
  | some source =>
    cases places[e.target]? with
    | none => exact refines_throw _
    | some target => exact addEdge_refines source target e.tag

theorem absorb_refines (fragment : Store) : Refines (absorb fragment) fun g => g.absorb fragment.graph := by
  refine ((refines_mapM (absorbNode_refines fragment) fragment.nodes.toList).bind fun places =>
    (refines_forM (absorbEdge_refines places) fragment.edges).bind fun _ => refines_pure places).of_eq
      fun g => ?_
  have vertices : fragment.graph.vertices.foldlM Graph.absorbVertex (g, []) =
      fragment.nodes.toList.foldlM
        (collect fun node => place ⟨node.identity, fragment.textOf node.label⟩) (g, []) := by
    rw [absorbVertex_eq_collect, graph, Store.vertices, List.foldlM_map]
    rfl
  rw [Graph.absorb, vertices]
  refine bind_congr fun m => ?_
  change ((fragment.edges.foldlM (Graph.absorbEdge m.2) m.1).map (·, ()) >>= _) =
    (fragment.edges.foldlM (Graph.absorbEdge m.2) m.1 >>= _)
  cases fragment.edges.foldlM (Graph.absorbEdge m.2) m.1 <;> rfl

end ProgramDependence.Store
