import ProgramDependence.Flow.Digraph
import ProgramDependence.Flow.Steps
import ProgramDependence.Proofs.Ascending

/-! Walks in directed graphs, and where control goes in a body whose branches stay inside it. -/
namespace ProgramDependence

/-- Each of the nodes gets the number once for every time it is listed. -/
theorem Lists.foldl_push (lists : Lists) (n : Nat) (nodes : List Nat) (k : Nat) :
    nodes.foldl (fun lists j => lists.push j n) lists k =
      lists k ++ (nodes.filter fun j => j = k).map fun _ => n := by
  induction nodes generalizing lists with
  | nil => simp
  | cons j nodes ih =>
    rw [List.foldl_cons, ih, push]
    by_cases same : j = k
    · simp [same]
    · simp [same, Ne.symm same]

namespace Digraph

variable {g : Digraph} {i j : Nat}

/-- Edges lead to nodes of the graph. -/
def Closed (g : Digraph) : Prop := ∀ i, ∀ j ∈ g.succs i, j < g.size

theorem lt_of_mem_succs (edge : j ∈ g.succs i) : i < g.size := by
  by_contra past
  have none : g.succs i = [] := by
    simp only [succs, List.getD_eq_getElem?_getD, List.getElem?_eq_none (Nat.le_of_not_lt past),
      Option.getD_none]
  simp [none] at edge

/-- What the lists of predecessors hold when they are filled: a node as often as it has an edge. -/
theorem preds_eq_flatMap (g : Digraph) (j : Nat) : g.preds j =
    (List.range g.size).flatMap fun i => ((g.succs i).filter fun k => k = j).map fun _ => i := by
  suffices filled : ∀ (nodes : List Nat) (lists : Lists),
      nodes.foldl (fun lists i => (g.succs i).foldl (fun lists j => lists.push j i) lists) lists j =
        lists j ++ nodes.flatMap fun i => ((g.succs i).filter fun k => k = j).map fun _ => i from
    filled (List.range g.size) fun _ => []
  intro nodes
  induction nodes with
  | nil => simp
  | cons i nodes ih =>
    intro lists
    rw [List.foldl_cons, ih, Lists.foldl_push, List.flatMap_cons, List.append_assoc]

@[simp] theorem mem_preds : i ∈ g.preds j ↔ j ∈ g.succs i := by
  simp only [preds_eq_flatMap, List.mem_flatMap, List.mem_range, List.mem_map, List.mem_filter,
    decide_eq_true_eq]
  constructor
  · rintro ⟨i, _, k, ⟨edge, rfl⟩, rfl⟩
    exact edge
  · intro edge
    exact ⟨i, lt_of_mem_succs edge, j, ⟨edge, rfl⟩, rfl⟩

theorem mem_reverse_succs : i ∈ g.reverse.succs j ↔ j < g.size ∧ j ∈ g.succs i := by
  by_cases bound : j < g.size
  · have row : g.reverse.succs j = g.preds j := by
      simp [reverse, succs, List.getD_eq_getElem?_getD, bound]
    simp [row, bound]
  · have row : g.reverse.succs j = [] := by
      simp [reverse, succs, List.getD_eq_getElem?_getD, bound]
    simp [row, bound]

theorem mem_tails : i ∈ g.tails ↔ i < g.size ∧ g.succs i = [] := by
  simp [tails]

/-- From `a` to `b` in one step or more, with the nodes strictly between. -/
inductive Walk (g : Digraph) : Nat → List Nat → Nat → Prop where
  | edge {a b : Nat} : b ∈ g.succs a → Walk g a [] b
  | cons {a m b : Nat} {between : List Nat} : m ∈ g.succs a → Walk g m between b →
      Walk g a (m :: between) b

theorem Walk.snoc (walk : Walk g a between m) (edge : b ∈ g.succs m) :
    Walk g a (between ++ [m]) b := by
  induction walk with
  | edge first => exact .cons first (.edge edge)
  | cons first _ ih => exact .cons first (ih edge)

/-- What is left of a walk from a node on its way. -/
theorem Walk.suffix {earlier later : List Nat} (walk : Walk g a between b)
    (split : between = earlier ++ m :: later) : Walk g m later b := by
  induction walk generalizing earlier with
  | edge _ => simp at split
  | cons first rest ih =>
    cases earlier with
    | nil =>
      obtain ⟨rfl, rfl⟩ := List.cons.inj split
      exact rest
    | cons x earlier =>
      obtain ⟨rfl, tail⟩ := List.cons.inj split
      exact ih tail

end Digraph

/-! ### Bodies -/

namespace Body

variable {b : Body} {flow : Digraph} {i j : Nat}

/-- Every branch leads into the body. -/
def InRange (b : Body) : Prop := ∀ s ∈ b.stmts, ∀ target ∈ s.targets, target < b.size

instance (b : Body) : Decidable b.InRange :=
  inferInstanceAs (Decidable (∀ s ∈ b.stmts, ∀ target ∈ s.targets, target < b.size))

theorem length_stmts (b : Body) : b.stmts.length = b.size := by simp [stmts, size]

theorem badTarget?_eq_none : b.badTarget? = none ↔ b.InRange := by
  simp only [badTarget?, List.findSome?_eq_none_iff, Option.map_eq_none_iff, List.find?_eq_none,
    decide_eq_true_eq, Nat.not_le]
  constructor
  · intro inside s member target branch
    obtain ⟨i, bound, rfl⟩ := List.mem_iff_getElem.mp member
    exact inside (b.stmts[i], i) (List.mk_mem_zipIdx_iff_getElem?.mpr (by simp [bound])) target branch
  · intro inside p member target branch
    exact inside p.1 (List.fst_mem_of_mem_zipIdx member) target branch

theorem flow?_of_inRange (inRange : b.InRange) :
    b.flow? = .ok ⟨b.stmts.zipIdx.map fun (s, i) => following b.size i s⟩ := by
  simp only [flow?, badTarget?_eq_none.mpr inRange]

theorem flow?_inv (ok : b.flow? = .ok flow) :
    b.InRange ∧ flow = ⟨b.stmts.zipIdx.map fun (s, i) => following b.size i s⟩ := by
  unfold flow? at ok
  split at ok
  · cases ok
  next none =>
    cases ok
    exact ⟨badTarget?_eq_none.mp none, rfl⟩

theorem flow_size (ok : b.flow? = .ok flow) : flow.size = b.size := by
  obtain ⟨_, rfl⟩ := flow?_inv ok
  simp [Digraph.size, stmts, size]

/-- Control goes on to the next instruction or to a branch target. -/
theorem mem_flow_succs (ok : b.flow? = .ok flow) :
    j ∈ flow.succs i ↔ ∃ s, b.stmts[i]? = some s ∧
      ((s.fallsThrough ∧ i + 1 < b.size ∧ j = i + 1) ∨ j ∈ s.targets) := by
  obtain ⟨_, rfl⟩ := flow?_inv ok
  simp only [Digraph.succs, List.getD_eq_getElem?_getD, List.getElem?_map, List.getElem?_zipIdx,
    Nat.zero_add]
  cases b.stmts[i]? with
  | none => simp
  | some s =>
    simp only [Option.map_some, Option.getD_some, following, Ascending.mem_ofList, List.mem_append,
      Option.some.injEq, exists_eq_left']
    refine or_congr_left ?_
    by_cases falls : s.fallsThrough = true ∧ i + 1 < b.size
    · simp [falls]
    · rw [if_neg (by simpa using falls)]
      simp only [List.not_mem_nil, false_iff]
      rintro ⟨through, bound, _⟩
      exact falls ⟨through, bound⟩

theorem flow_closed (ok : b.flow? = .ok flow) : flow.Closed := by
  intro i j edge
  rw [flow_size ok]
  obtain ⟨s, there, ⟨_, bound, rfl⟩ | branch⟩ := (mem_flow_succs ok).mp edge
  · exact bound
  · exact (flow?_inv ok).1 s (List.mem_of_getElem? there) j branch

end Body
end ProgramDependence
