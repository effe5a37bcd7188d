import ProgramDependence.Proofs.Store.Refinement

/-! Stores made anew, by cutting slices and by reading text, hold the graphs that are cut and read. A
slice finds its nodes by a table of places, which is their position among the nodes kept. -/
namespace ProgramDependence.Store

variable {s : Store}

/-- A store, or a failure, that holds the graph on the right. -/
structure Mirrors (r : Except ε Store) (r' : Except ε Graph) : Prop where
  coherent : ∀ s, r = .ok s → Coherent s
  seen : r.map graph = r'

theorem mirrors_ok (coherent : Coherent s) : Mirrors (.ok s : Except ε Store) (.ok s.graph) :=
  ⟨fun _ same => Except.ok.inj same ▸ coherent, rfl⟩

theorem mirrors_error (e : ε) : Mirrors (.error e) (.error e) := ⟨fun _ same => (nomatch same), rfl⟩

theorem Mirrors.cases {r : Except ε Store} {r' : Except ε Graph} (mirrors : Mirrors r r') :
    (∃ s, r = .ok s ∧ Coherent s ∧ r' = .ok s.graph) ∨ ∃ e, r = .error e ∧ r' = .error e := by
  have seen := mirrors.seen
  cases r with
  | ok s => exact .inl ⟨s, rfl, mirrors.coherent s rfl, seen.symm⟩
  | error e => exact .inr ⟨e, rfl, seen.symm⟩

theorem exec_mirrors {a : Action Unit} {f : Graph → Except GraphError Graph}
    (refines : Refines a fun g => (f g).map (·, ())) (coherent : Coherent s) :
    Mirrors (a.exec s) (f s.graph) := by
  have kept := refines.coherent s coherent
  have seen := refines.seen s coherent
  unfold Action.exec
  cases done : a s with
  | ok x s' =>
    rw [done] at kept seen
    cases result : f s.graph with
    | ok g =>
      rw [result] at seen
      obtain rfl := congrArg Prod.fst (Except.ok.inj seen)
      exact mirrors_ok kept
    | error e =>
      rw [result] at seen
      cases seen
  | error e s' =>
    rw [done] at seen
    cases result : f s.graph with
    | ok g =>
      rw [result] at seen
      cases seen
    | error e' =>
      rw [result] at seen
      obtain rfl := Except.error.inj seen
      exact mirrors_error e

theorem mirrors_foldlM {step : Store → β → Except ε Store} {f : Graph → β → Except ε Graph}
    (each : ∀ s x, Coherent s → Mirrors (step s x) (f s.graph x)) (xs : List β) (coherent : Coherent s) :
    Mirrors (xs.foldlM step s) (xs.foldlM f s.graph) := by
  induction xs generalizing s with
  | nil => exact mirrors_ok coherent
  | cons x xs ih =>
    rw [List.foldlM_cons, List.foldlM_cons]
    rcases (each s x coherent).cases with ⟨s', done, kept, same⟩ | ⟨e, failed, same⟩
    · rw [done, same]
      exact ih kept
    · rw [failed, same]
      exact mirrors_error e

/-! ### Slices -/

theorem labelled_graph (s : Store) (label : String) : s.graph.labelled label = s.labelled label := by
  rw [Graph.labelled, labelled, nodeCount_graph]
  refine List.filter_congr fun id _ => ?_
  rw [vertex_graph, Store.label]
  cases s.nodes[id]? <;> rfl

/-- What came of keeping nodes on top of a part: each has its place, counted from the end of the part. -/
structure Places (part : Kept) (kept : List Nat) (r : Kept) : Prop where
  coherent : Coherent r.1
  place : ∀ j : Nat, r.2[j]? = ((kept.idxOf? j).map (· + part.1.nodeCount)).or part.2[j]?

/-- The place of a node that comes first, then of those after it. -/
theorem Places.cons {part r : Kept} {id : Nat} {kept : List Nat} {identity : Identity}
    (absent : id ∉ kept)
    (rest : Places ((part.1.push identity).1, part.2.insert id (part.1.push identity).2) kept r)
    (more : (part.1.push identity).1.nodeCount = part.1.nodeCount + 1) :
    Places part (id :: kept) r where
  coherent := rest.coherent
  place j := by
    rw [rest.place, List.idxOf?_cons, more, Std.HashMap.getElem?_insert]
    by_cases same : id = j
    · subst same
      have none : kept.idxOf? id = none := List.idxOf?_eq_none_iff.mpr absent
      simp [none, push, nodeCount]
    · cases kept.idxOf? j <;> simp [same, Nat.add_assoc, Nat.add_comm 1]

theorem keepNodes_from (s : Store) (part : Kept) (coherent : Coherent part.1) {kept : List Nat}
    (distinct : kept.Nodup) :
    let flat := kept.foldlM (fun part i => (s.view i).map part.push) part.1.graph
    (∃ r, kept.foldlM s.keepNode part = .ok r ∧ Places part kept r ∧ flat = .ok r.1.graph) ∨
      ∃ e, kept.foldlM s.keepNode part = .error e ∧ flat = .error e := by
  intro flat
  induction kept generalizing part with
  | nil => exact .inl ⟨part, rfl, ⟨coherent, fun j => rfl⟩, rfl⟩
  | cons id kept ih =>
    obtain ⟨absent, distinct⟩ := List.nodup_cons.mp distinct
    simp only [flat, List.foldlM_cons, keepNode]
    cases s.view id with
    | error e => exact .inr ⟨e, rfl, rfl⟩
    | ok identity =>
      obtain ⟨kept', graph, place⟩ := push_spec coherent identity
      have more : (part.1.push identity).1.nodeCount = part.1.nodeCount + 1 := by
        rw [← nodeCount_graph, graph, Graph.push_nodeCount, nodeCount_graph]
      rcases ih ((part.1.push identity).1, part.2.insert id (part.1.push identity).2) kept' distinct
        with ⟨r, done, places, same⟩ | ⟨e, failed, same⟩
      · rw [graph] at same
        exact .inl ⟨r, done, places.cons absent more, same⟩
      · rw [graph] at same
        exact .inr ⟨e, failed, same⟩

theorem keepEdge_mirrors {kept : List Nat} {places : Std.HashMap Nat Nat}
    (place : ∀ j : Nat, places[j]? = kept.idxOf? j) (part : Store) (e : Edge) (coherent : Coherent part) :
    Mirrors (keepEdge places part e)
      (match Graph.keepEdge kept e with
        | none => .ok part.graph
        | some e => part.graph.addEdge e.source e.target e.tag) := by
  simp only [keepEdge, Graph.keepEdge, place]
  cases kept.idxOf? e.source with
  | none => exact mirrors_ok coherent
  | some source =>
    cases kept.idxOf? e.target with
    | none => exact mirrors_ok coherent
    | some target => exact exec_mirrors (addEdge_refines source target e.tag) coherent

theorem sliceFrom_mirrors (s : Store) (id : Nat) : Mirrors (s.sliceFrom id) (s.graph.sliceFrom id) := by
  have distinct : (Graph.keptFrom s.edges id).Nodup := (Graph.keptFrom_ascending s.edges id).nodup
  have flat : s.graph.pushKept (Graph.keptFrom s.edges id) =
      (Graph.keptFrom s.edges id).foldlM (fun part i => (s.view i).map part.push)
        ((.empty, ∅) : Kept).1.graph := by
    simp only [Graph.pushKept, view_graph, empty_graph]
  have kept : s.graph.leadingTo id = Graph.keptFrom s.edges id := rfl
  rw [sliceFrom, Graph.sliceFrom, kept, flat, pushKept]
  rcases keepNodes_from s (.empty, ∅) empty_coherent distinct with
    ⟨r, done, places, same⟩ | ⟨e, failed, same⟩
  · rw [done, same]
    have place (j : Nat) : r.2[j]? = (Graph.keptFrom s.edges id).idxOf? j := by
      rw [places.place]
      cases (Graph.keptFrom s.edges id).idxOf? j <;> simp [empty, nodeCount]
    exact mirrors_foldlM (keepEdge_mirrors place) s.edges places.coherent
  · rw [failed, same]
    exact mirrors_error e

/-- Slicing fails for both or for neither, and a slice of the one holds that of the other. -/
theorem slice_mirrors (s : Store) (label : String) :
    (∀ parts, s.slice label = .ok parts → ∀ part ∈ parts, Coherent part) ∧
      (s.slice label).map (List.map graph) = s.graph.slice label := by
  rw [slice, Graph.slice, labelled_graph]
  induction s.labelled label with
  | nil =>
    refine ⟨fun parts none part member => ?_, rfl⟩
    obtain rfl := Except.ok.inj none
    cases member
  | cons id ids ih =>
    rw [List.mapM_cons, List.mapM_cons, ← ih.2]
    rcases (sliceFrom_mirrors s id).cases with ⟨first, done, kept, same⟩ | ⟨e, failed, same⟩
    · rw [done, same]
      cases rest : ids.mapM s.sliceFrom with
      | error e => exact ⟨fun parts absurd => (nomatch absurd), rfl⟩
      | ok parts =>
        refine ⟨fun all same part member => ?_, rfl⟩
        obtain rfl := Except.ok.inj same
        rcases List.mem_cons.mp member with rfl | later
        · exact kept
        · exact ih.1 parts rest part later
    · rw [failed, same]
      exact ⟨fun parts absurd => (nomatch absurd), rfl⟩

/-! ### Text -/

theorem pushRecords_mirrors (records : List (Nat × VertexRecord)) (coherent : Coherent s) :
    Mirrors (s.pushRecords records) (Graph.pushRecords s.graph records) := by
  induction records generalizing s with
  | nil => exact mirrors_ok coherent
  | cons record records ih =>
    obtain ⟨line, v⟩ := record
    rw [pushRecords, Graph.pushRecords, nodeCount_graph]
    split
    · obtain ⟨kept, graph, _⟩ := push_spec coherent v.identity
      rw [← graph]
      exact ih kept
    · exact mirrors_error _

theorem addRecords_mirrors (records : List (Nat × Edge)) (coherent : Coherent s) :
    Mirrors (s.addRecords records) (Graph.addRecords s.graph records) := by
  induction records generalizing s with
  | nil => exact mirrors_ok coherent
  | cons record records ih =>
    obtain ⟨line, e⟩ := record
    rw [addRecords, Graph.addRecords]
    rcases (exec_mirrors (addEdge_refines e.source e.target e.tag) coherent).cases with
      ⟨s', done, kept, same⟩ | ⟨e, failed, same⟩
    · rw [done, same]
      exact ih kept
    · rw [failed, same]
      exact mirrors_error _

theorem ofLines_mirrors (lines : List (Option (List Char))) :
    Mirrors (ofLines lines) (Graph.ofLines lines) := by
  rw [ofLines, Graph.ofLines]
  cases Graph.readLines {} 1 lines with
  | error e => exact mirrors_error e
  | ok records =>
    simp only [ofRecords, Graph.ofRecords]
    rcases (pushRecords_mirrors (records.vertices.mergeSort Graph.byId) empty_coherent).cases with
      ⟨s, done, kept, same⟩ | ⟨e, failed, same⟩
    · rw [done, ← empty_graph, same]
      exact addRecords_mirrors records.edges kept
    · rw [failed, ← empty_graph, same]
      exact mirrors_error e

theorem text_graph (s : Store) : s.graph.text = s.text := by
  have line : s.graph.edgeLine = s.edgeLine := by
    funext e
    simp only [Graph.edgeLine, edgeLine, label_graph]
  rw [Graph.text, text, Graph.write, write, line]
  rfl

end ProgramDependence.Store
