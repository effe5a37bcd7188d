import ProgramDependence.Proofs.Graph.Numbers
import ProgramDependence.Proofs.Graph.Slice
import ProgramDependence.Proofs.Graph.Writer
import ProgramDependence.Proofs.Store.Slice
import ProgramDependence.Proofs.Text.Bytes

/-! Stores under a run of calls, failed ones among them. A call that names a node which is not there
is refused before anything is changed. -/
namespace ProgramDependence

/-- By the bytes of the tag, then by source, then by target. -/
def Edge.Precedes (a b : Edge) : Prop :=
  Text.bytes a.tag < Text.bytes b.tag ∨ (a.tag = b.tag ∧
    (a.source < b.source ∨ (a.source = b.source ∧ a.target < b.target)))

theorem Edge.lt_iff_precedes (a b : Edge) : a < b ↔ a.Precedes b := by
  rw [Edge.lt_iff, Text.lt_iff_bytes, Edge.Precedes]

namespace Store

/-- Made by some sequence of operations. One that fails leaves a store, too. -/
inductive Made : Store → Prop where
  | empty : Made .empty
  | addNode (i : Identity) : Made s → Made (s.addNode i).1
  | setLabel (id : Nat) (label : String) : Made s → Made (left (setLabel id label s))
  | addEdge (source target : Nat) (tag : String) : Made s → Made (left (addEdge source target tag s))
  | absorb : Made s → Made f → Made (left (absorb f s))
  | slice (label : String) : Made s → s.slice label = .ok parts → part ∈ parts → Made part
  | read (lines : List (Option (List Char))) : ofLines lines = .ok s → Made s

/-- The calls that may change a store in place. -/
inductive Call where
  | addNode (i : Identity)
  | setLabel (id : Nat) (label : String)
  | addEdge (source target : Nat) (tag : String)
  | absorb (fragment : { f : Store // f.Made })

namespace Call

/-- The change, and the numbers that are given back. -/
def run : Call → Action (List Nat)
  | .addNode i => do
    let id ← modifyGet fun s => (s.addNode i).swap
    pure [id]
  | .setLabel id label => do
    Store.setLabel id label
    pure []
  | .addEdge source target tag => do
    Store.addEdge source target tag
    pure []
  | .absorb fragment => Store.absorb fragment

/-- The first node that the call names and that is not there. A fragment names none. -/
def missing? (s : Store) : Call → Option Nat
  | .setLabel id _ => [id].find? fun k => s.nodeCount ≤ k
  | .addEdge source target _ => [source, target].find? fun k => s.nodeCount ≤ k
  | .addNode _ | .absorb _ => none

end Call

/-- The store that a call leaves. -/
def perform (s : Store) (c : Call) : Store := left (c.run s)

def performAll (s : Store) (calls : List Call) : Store := calls.foldl perform s

variable {s s' f : Store} {i a b : Identity} {c : Call} {e : GraphError} {id source target : Nat}
  {label tag : String}

/-! ### Calls on graphs -/

/-- What a call does to the graph that a store holds. -/
def Call.onGraph (g : Graph) : Call → Except GraphError (Graph × List Nat)
  | .addNode i => .ok ((g.intern i).1, [(g.intern i).2])
  | .setLabel id label => (g.relabel id label).map (·, [])
  | .addEdge source target tag => (g.addEdge source target tag).map (·, [])
  | .absorb fragment => g.absorb fragment.1.graph

theorem run_refines (c : Call) : Refines c.run fun g => c.onGraph g := by
  cases c with
  | addNode i => exact (addNode_refines i).bind fun id => refines_pure [id]
  | setLabel id label =>
    refine ((setLabel_refines id label).bind fun _ => refines_pure []).of_eq fun g => ?_
    simp only [Call.onGraph]
    cases g.relabel id label <;> rfl
  | addEdge source target tag =>
    refine ((addEdge_refines source target tag).bind fun _ => refines_pure []).of_eq fun g => ?_
    simp only [Call.onGraph]
    cases g.addEdge source target tag <;> rfl
  | absorb fragment => exact absorb_refines fragment

theorem ok_of_map {r : Except GraphError Graph} {x y : α} (done : r.map (·, x) = .ok (h, y)) : r = .ok h := by
  cases r with
  | error e => cases done
  | ok h' =>
    cases done
    rfl

theorem error_map_iff {r : Except GraphError Graph} {x : α} : r.map (·, x) = .error e ↔ r = .error e := by
  cases r <;> simp [Except.map]

/-! ### What is made -/

/-- The node is looked for before the label goes into the table. -/
theorem setLabel_error (failed : setLabel id label s = .error e s') : s' = s := by
  unfold setLabel at failed
  split at failed
  · cases failed
    rfl
  · cases failed

/-- Both ends are looked for before the edge goes into the map. -/
theorem addEdge_error (failed : addEdge source target tag s = .error e s') : s' = s := by
  unfold addEdge at failed
  split at failed
  · cases failed
    rfl
  · split at failed
    · cases failed
      rfl
    · cases failed

/-- If the operation on graphs succeeds, so does the one on stores. -/
theorem Refines.ok {x : Action α} {f : Graph → Except GraphError (Graph × α)} {y : α}
    (refines : Refines x f) (coherent : Coherent s) (done : f s.graph = .ok (g, y)) :
    ∃ s', x s = .ok y s' ∧ Coherent s' ∧ s'.graph = g := by
  have kept := refines.coherent s coherent
  have seen := refines.seen s coherent
  rw [done] at seen
  cases result : x s with
  | ok z s' =>
    rw [result] at kept seen
    obtain ⟨rfl, rfl⟩ := Prod.mk.inj (Except.ok.inj seen)
    exact ⟨s', rfl, kept, rfl⟩
  | error e s' =>
    rw [result] at seen
    cases seen

/-- The tables of the store agree, and the graph it holds can be made by operations on graphs. -/
structure Sound (s : Store) : Prop where
  coherent : Coherent s
  reachable : s.graph.Reachable

/-- An operation that changes nothing when it fails. -/
theorem Refines.sound {x : Action Unit} {f : Graph → Except GraphError Graph}
    (refines : Refines x fun g => (f g).map (·, ())) (sound : Sound s)
    (refused : ∀ e s', x s = .error e s' → s' = s) (reached : ∀ h, f s.graph = .ok h → h.Reachable) :
    Sound (left (x s)) := by
  refine ⟨refines.coherent s sound.coherent, ?_⟩
  have seen := refines.seen s sound.coherent
  cases done : x s with
  | error e s' =>
    obtain rfl := refused e s' done
    exact sound.reachable
  | ok y s' =>
    rw [done] at seen
    exact reached s'.graph (ok_of_map seen.symm)

/-- Absorbing is many changes, and none of them fails. -/
theorem absorb_of_sound (sound : Sound s) (fSound : Sound f) :
    ∃ places s', absorb f s = .ok places s' ∧ Sound s' := by
  obtain ⟨g, places, absorbed⟩ := Graph.absorb_of_reachable sound.reachable fSound.reachable
  obtain ⟨s', done, coherent, rfl⟩ := (absorb_refines f).ok sound.coherent absorbed
  exact ⟨places, s', done, coherent, .absorb places sound.reachable fSound.reachable absorbed⟩

theorem slice_sound (sound : Sound s) (sliced : s.slice label = .ok parts) (member : f ∈ parts) :
    Sound f := by
  obtain ⟨coherent, seen⟩ := slice_mirrors s label
  rw [sliced, Graph.slice_of_sound sound.reachable.sound] at seen
  refine ⟨coherent parts sliced f member, .slice label sound.reachable ?_⟩
  rw [← Except.ok.inj seen]
  exact List.mem_map_of_mem member

/-- All seven operations keep the tables in agreement. -/
theorem Made.sound (made : Made s) : Sound s := by
  induction made with
  | empty => exact ⟨empty_coherent, .empty⟩
  | addNode i _ ih =>
    obtain ⟨coherent, graph, _⟩ := addNode_spec ih.coherent i
    exact ⟨coherent, graph ▸ .intern i ih.reachable⟩
  | setLabel id label _ ih =>
    exact (setLabel_refines id label).sound ih (fun _ _ => setLabel_error)
      fun _ => .relabel id label ih.reachable
  | addEdge source target tag _ ih =>
    exact (addEdge_refines source target tag).sound ih (fun _ _ => addEdge_error)
      fun _ => .addEdge source target tag ih.reachable
  | absorb _ _ ih fih =>
    obtain ⟨places, s', done, sound⟩ := absorb_of_sound ih fih
    rw [done]
    exact sound
  | slice label _ sliced member ih => exact slice_sound ih sliced member
  | read lines ok =>
    have mirrors := ofLines_mirrors lines
    have seen := mirrors.seen
    rw [ok] at seen
    exact ⟨mirrors.coherent _ ok, .read lines seen.symm⟩

/-! ### One call -/

/-- What is given back makes no difference to the store. -/
theorem bind_pure_run (x : Action α) (y : β) (s : Store) : (x >>= fun _ => pure y) s =
    match x s with
    | .ok _ s' => .ok y s'
    | .error e s' => .error e s' := by
  change EStateM.bind x (fun _ => pure y) s = _
  unfold EStateM.bind
  cases x s <;> rfl

theorem error_of_bind_pure {x : Action α} {y : β} (failed : (x >>= fun _ => pure y) s = .error e s') :
    x s = .error e s' := by
  rw [bind_pure_run] at failed
  cases result : x s with
  | ok z t =>
    rw [result] at failed
    cases failed
  | error e' t =>
    rw [result] at failed
    cases failed
    rfl

theorem left_bind_pure (x : Action α) (y : β) (s : Store) : left ((x >>= fun _ => pure y) s) = left (x s) := by
  rw [bind_pure_run]
  cases x s <;> rfl

theorem perform_made (made : Made s) (c : Call) : Made (s.perform c) := by
  cases c with
  | addNode i => exact .addNode i made
  | setLabel id label =>
    rw [perform, Call.run, left_bind_pure]
    exact .setLabel id label made
  | addEdge source target tag =>
    rw [perform, Call.run, left_bind_pure]
    exact .addEdge source target tag made
  | absorb fragment => exact .absorb made fragment.2

/-- A call fails for the first node that it names and that is not there, and for nothing else. -/
theorem onGraph_error_iff (sound : Sound s) (c : Call) :
    c.onGraph s.graph = .error e ↔ ∃ id, c.missing? s = some id ∧ e = .missing id := by
  cases c with
  | addNode i => simp [Call.onGraph, Call.missing?]
  | setLabel id label =>
    rw [Call.onGraph, error_map_iff, Graph.relabel_error_iff, nodeCount_graph]
    by_cases past : s.nodeCount ≤ id <;> simp [Call.missing?, past]
  | addEdge source target tag =>
    rw [Call.onGraph, error_map_iff, Graph.addEdge_error_iff, nodeCount_graph]
    by_cases first : s.nodeCount ≤ source
    · simp [Call.missing?, first, Nat.not_lt.mpr first]
    · by_cases second : s.nodeCount ≤ target <;>
        simp [Call.missing?, first, second, Nat.lt_of_not_le first]
  | absorb fragment =>
    obtain ⟨h, places, ok⟩ := Graph.absorb_of_reachable sound.reachable fragment.2.sound.reachable
    simp [Call.onGraph, Call.missing?, ok]

theorem run_error_iff (sound : Sound s) (c : Call) :
    (∃ s', c.run s = .error e s') ↔ ∃ id, c.missing? s = some id ∧ e = .missing id := by
  rw [← onGraph_error_iff sound, ← (run_refines c).seen s sound.coherent]
  cases c.run s with
  | ok x s' => simp [seen]
  | error e' s' => simp [seen]

/-- What is refused is refused before anything is changed. -/
theorem run_error (sound : Sound s) (failed : c.run s = .error e s') : s' = s := by
  cases c with
  | addNode i => cases failed
  | setLabel id label => exact setLabel_error (error_of_bind_pure failed)
  | addEdge source target tag => exact addEdge_error (error_of_bind_pure failed)
  | absorb fragment =>
    obtain ⟨places, t, done, _⟩ := absorb_of_sound sound fragment.2.sound
    cases done.symm.trans failed

theorem onGraph_initial (sound : Sound s) (done : c.onGraph s.graph = .ok (g, ids)) :
    s.graph.identities <+: g.identities := by
  cases c with
  | addNode i =>
    cases done
    rw [Graph.intern_identities]
    exact enlist_initial s.graph.identities i
  | setLabel id label =>
    have same := Graph.relabel_identities (ok_of_map done)
    exact same ▸ List.prefix_rfl
  | addEdge source target tag =>
    obtain ⟨_, _, rfl⟩ := Graph.addEdge_ok (ok_of_map done)
    exact List.prefix_rfl
  | absorb fragment =>
    exact Graph.absorb_initial sound.reachable.sound fragment.2.sound.reachable.sound done

theorem perform_initial (sound : Sound s) (c : Call) :
    s.graph.identities <+: (s.perform c).graph.identities := by
  have seen := (run_refines c).seen s sound.coherent
  unfold perform
  cases done : c.run s with
  | error e s' =>
    obtain rfl := run_error sound done
    exact List.prefix_rfl
  | ok ids s' =>
    rw [done] at seen
    exact onGraph_initial sound seen.symm

theorem perform_graph (sound : Sound s) (done : c.onGraph s.graph = .ok (g, ids)) :
    (s.perform c).graph = g := by
  obtain ⟨s', ran, _, rfl⟩ := (run_refines c).ok sound.coherent done
  rw [perform, ran]
  rfl

theorem perform_of_missing (sound : Sound s) (missing : c.missing? s = some id) : s.perform c = s := by
  obtain ⟨s', failed⟩ := (run_error_iff sound c).mpr ⟨id, missing, rfl⟩
  rw [perform, failed]
  exact run_error sound failed

/-! ### A run of calls -/

theorem performAll_made (made : Made s) (calls : List Call) : Made (s.performAll calls) := by
  induction calls generalizing s with
  | nil => exact made
  | cons c calls ih => exact ih (perform_made made c)

theorem performAll_initial (made : Made s) (calls : List Call) :
    s.graph.identities <+: (s.performAll calls).graph.identities := by
  induction calls generalizing s with
  | nil => exact List.prefix_rfl
  | cons c calls ih => exact (perform_initial made.sound c).trans (ih (perform_made made c))

/-- A run without a failure, followed on graphs. -/
theorem performAll_graph (made : Made s) {calls : List Call}
    (done : calls.foldlM (fun g c => (c.onGraph g).map (·.1)) s.graph = .ok g) :
    (s.performAll calls).graph = g := by
  induction calls generalizing s with
  | nil => exact Except.ok.inj done
  | cons c calls ih =>
    rw [List.foldlM_cons] at done
    cases first : c.onGraph s.graph with
    | error e =>
      rw [first] at done
      cases done
    | ok r =>
      rw [first] at done
      apply ih (perform_made made c)
      rw [perform_graph made.sound first]
      exact done

/-! ### The whole store -/

/-- The index finds a node if there is one with the identity; else a new one gets the next number. -/
theorem addNode_cases (coherent : Coherent s) (i : Identity) :
    ((∃ node ∈ s.nodes, node.identity = i) ∧ (s.addNode i).1 = s ∧ (s.addNode i).2 < s.nodeCount) ∨
      ((∀ node ∈ s.nodes, node.identity ≠ i) ∧ (s.addNode i).1 = (s.push i).1 ∧
        (s.addNode i).2 = s.nodeCount) := by
  have exact := coherent.index i
  rw [List.findIdx?_map] at exact
  simp only [addNode]
  cases found : s.index[i]? with
  | some id =>
    rw [found] at exact
    obtain ⟨bound, same, _⟩ := List.findIdx?_eq_some_iff_getElem.mp exact.symm
    have inside : id < s.nodes.size := by simpa using bound
    exact .inl ⟨⟨_, Array.getElem_mem inside, by simpa using same⟩, rfl, inside⟩
  | none =>
    rw [found] at exact
    refine .inr ⟨fun node member => ?_, rfl, rfl⟩
    simpa using List.findIdx?_eq_none_iff.mp exact.symm node (Array.mem_toList_iff.mpr member)

/-- What holds of a store at any point of any run. -/
structure WellKept (s : Store) : Prop where
  coherent : Coherent s
  ends : ∀ e ∈ s.edges, e.source < s.nodeCount ∧ e.target < s.nodeCount
  written : ∃ text, s.text = .ok text
  ordered : s.edges.Pairwise Edge.Precedes
  counted : s.edgeCount = s.edges.length
  listed : ∀ source target tag, s.hasEdge source target tag = true ↔ ⟨source, target, tag⟩ ∈ s.edges
  refused : ∀ (c : Call) e, (∃ s', c.run s = .error e s') ↔ ∃ id, c.missing? s = some id ∧ e = .missing id
  unchanged : ∀ (c : Call) e s', c.run s = .error e s' → s' = s
  /-- Absorbing is many changes, so it must not stop between them. -/
  absorbs : ∀ f, Made f → ∃ places s', absorb f s = .ok places s'
  numbered : ∀ i, ((∃ node ∈ s.nodes, node.identity = i) ∧ (s.addNode i).1 = s ∧
      (s.addNode i).2 < s.nodeCount) ∨
    ((∀ node ∈ s.nodes, node.identity ≠ i) ∧ (s.addNode i).1 = (s.push i).1 ∧
      (s.addNode i).2 = s.nodeCount)
  /-- From here to any later point of the run one number means one identity. -/
  identified : ∀ (later : List Call) a b,
    (s.addNode a).2 = (((s.addNode a).1.performAll later).addNode b).2 ↔ a = b

/-- Whatever made a store, it stays well kept under calls, whichever of them fail. -/
theorem performAll_wellKept (made : Made s) (calls : List Call) : WellKept (s.performAll calls) := by
  have madeNow := performAll_made made calls
  generalize s.performAll calls = now at madeNow
  have sound := madeNow.sound
  have flat := sound.reachable.sound
  constructor
  case coherent => exact sound.coherent
  case ends => exact fun e member => nodeCount_graph now ▸ flat.within e member
  case written => exact ⟨_, (text_graph now).symm.trans (Graph.text_of_sound flat)⟩
  case ordered => exact flat.ascending.imp fun before => (Edge.lt_iff_precedes _ _).mp before
  case counted => exact edgeCount_eq now
  case listed => exact fun source target tag => hasEdge_iff
  case refused => exact fun c e => run_error_iff sound c
  case unchanged => exact fun c e s' => run_error sound
  case absorbs =>
    intro f madeF
    obtain ⟨places, s', done, _⟩ := absorb_of_sound sound madeF.sound
    exact ⟨places, s', done⟩
  case numbered => exact addNode_cases sound.coherent
  case identified =>
    intro later a b
    obtain ⟨_, first, firstId⟩ := addNode_spec sound.coherent a
    have madeLater := performAll_made (.addNode a madeNow) later
    obtain ⟨_, _, secondId⟩ := addNode_spec madeLater.sound.coherent b
    have initial := performAll_initial (.addNode a madeNow) later
    rw [first] at initial
    rw [firstId, secondId]
    constructor
    · exact Graph.eq_of_intern_later initial
    · rintro rfl
      exact (Graph.intern_later initial).symm

def twin (label : String) : Identity := ⟨label, "", "", "C", "", "m()", "stmt", ⟨-1, -1, -1, -1⟩⟩

/-- Two vertices of one identity, as a slice leaves them when both came to show one label. -/
def twins : Graph := ⟨[⟨twin "x", "x"⟩, ⟨twin "x", "x"⟩], [⟨0, 1, "t"⟩]⟩

theorem exists_twins : ∃ s : Store, s.Made ∧ s.graph = twins := by
  let calls : List Call := [.addNode (twin "x"), .addNode (twin "y"), .setLabel 1 "x", .addEdge 0 1 "t"]
  have made := performAll_made .empty calls
  have graph : (Store.empty.performAll calls).graph =
      ⟨[⟨twin "x", "x"⟩, ⟨twin "y", "x"⟩], [⟨0, 1, "t"⟩]⟩ := performAll_graph .empty rfl
  have seen : ((Store.empty.performAll calls).slice "x").map (List.map Store.graph) =
      .ok [⟨[⟨twin "x", "x"⟩], []⟩, twins] := by
    rw [(slice_mirrors _ "x").2, graph]
    rfl
  cases cut : (Store.empty.performAll calls).slice "x" with
  | error e =>
    rw [cut] at seen
    cases seen
  | ok parts =>
    rw [cut] at seen
    have listed : twins ∈ parts.map Store.graph := by
      rw [Except.ok.inj seen]
      exact List.mem_cons_of_mem _ List.mem_cons_self
    obtain ⟨s, member, same⟩ := List.mem_map.mp listed
    exact ⟨s, .slice "x" made cut member, same⟩

theorem twins_wellKept : ∃ s : Store, s.Made ∧ s.graph = twins ∧
    let now := s.performAll [.setLabel 2 "y", .addEdge 0 7 "t", .setLabel 1 "y"]
    WellKept now ∧ now.graph = ⟨[⟨twin "x", "x"⟩, ⟨twin "x", "y"⟩], [⟨0, 1, "t"⟩]⟩ := by
  obtain ⟨s, made, graph⟩ := exists_twins
  have count : s.nodeCount = 2 := by rw [← nodeCount_graph, graph]; rfl
  refine ⟨s, made, graph, performAll_wellKept made _, ?_⟩
  have first : (Call.setLabel 2 "y").missing? s = some 2 := by simp [Call.missing?, count]
  have second : (Call.addEdge 0 7 "t").missing? s = some 7 := by simp [Call.missing?, count]
  simp only [performAll, List.foldl_cons, List.foldl_nil, perform_of_missing made.sound first,
    perform_of_missing made.sound second]
  exact perform_graph made.sound (by rw [graph]; rfl)

end Store
end ProgramDependence
