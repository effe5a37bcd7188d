import Mathlib.Data.List.Perm.Subperm
import Mathlib.Logic.Relation
import ProgramDependence.Graph.Slice
import ProgramDependence.Proofs.Ascending

/-! The search behind a slice keeps what leads to its start and nothing else. A vertex that is kept is
still on the stack or has had its sources kept; every step takes one off the stack, and no vertex goes
there twice. -/
namespace ProgramDependence.Graph

open Relation (ReflTransGen)

variable {edges : List Edge} {parents : Lists} {start i s k fuel : Nat} {v : Visit}

theorem parentsIn_eq (edges : List Edge) (k : Nat) :
    parentsIn edges k = (edges.filter fun e => e.target = k).map (·.source) := by
  suffices filled : ∀ lists : Lists, edges.foldl (fun lists e => lists.push e.target e.source) lists k =
      lists k ++ (edges.filter fun e => e.target = k).map (·.source) from filled fun _ => []
  induction edges with
  | nil => simp
  | cons e edges ih =>
    intro lists
    rw [List.foldl_cons, ih, Lists.push]
    by_cases same : e.target = k
    · simp [same]
    · simp [same, Ne.symm same]

theorem mem_parentsIn : s ∈ parentsIn edges k ↔ ∃ tag, ⟨s, k, tag⟩ ∈ edges := by
  simp only [parentsIn_eq, List.mem_map, List.mem_filter, decide_eq_true_eq]
  constructor
  · rintro ⟨⟨source, target, tag⟩, ⟨member, rfl⟩, rfl⟩
    exact ⟨tag, member⟩
  · rintro ⟨tag, member⟩
    exact ⟨_, ⟨member, rfl⟩, rfl⟩

namespace Visit

/-! ### Keeping -/

theorem keep_of_mem (member : i ∈ v.kept) : v.keep i = v :=
  if_pos (List.contains_iff_mem.mpr member)

theorem keep_of_not_mem (absent : i ∉ v.kept) :
    v.keep i = ⟨Ascending.insert i v.kept, i :: v.stack⟩ :=
  if_neg fun known => absent (List.contains_iff_mem.mp known)

theorem mem_kept_keepAll (sources : List Nat) (v : Visit) :
    i ∈ (sources.foldl keep v).kept ↔ i ∈ v.kept ∨ i ∈ sources := by
  induction sources generalizing v with
  | nil => simp
  | cons s sources ih =>
    rw [List.foldl_cons, ih]
    by_cases member : s ∈ v.kept
    · rw [keep_of_mem member]
      grind
    · rw [keep_of_not_mem member, Ascending.mem_insert]
      grind

theorem mem_stack_keepAll (sources : List Nat) (v : Visit) :
    i ∈ (sources.foldl keep v).stack ↔ i ∈ v.stack ∨ (i ∈ sources ∧ i ∉ v.kept) := by
  induction sources generalizing v with
  | nil => simp
  | cons s sources ih =>
    rw [List.foldl_cons, ih]
    by_cases member : s ∈ v.kept
    · rw [keep_of_mem member]
      grind
    · rw [keep_of_not_mem member, Ascending.mem_insert]
      grind

theorem keepAll_ascending (sources : List Nat) (v : Visit) (ordered : v.kept.Pairwise (· < ·)) :
    (sources.foldl keep v).kept.Pairwise (· < ·) := by
  induction sources generalizing v with
  | nil => exact ordered
  | cons s sources ih =>
    apply ih
    by_cases member : s ∈ v.kept
    · rw [keep_of_mem member]
      exact ordered
    · rw [keep_of_not_mem member]
      exact Ascending.insert_ascending s v.kept ordered

/-- What is kept anew goes on the stack. -/
theorem length_keepAll (sources : List Nat) (v : Visit) : ∃ new,
    (sources.foldl keep v).stack.length = v.stack.length + new ∧
      (sources.foldl keep v).kept.length = v.kept.length + new := by
  induction sources generalizing v with
  | nil => exact ⟨0, rfl, rfl⟩
  | cons s sources ih =>
    obtain ⟨new, stack, kept⟩ := ih (v.keep s)
    rw [List.foldl_cons, stack, kept]
    by_cases member : s ∈ v.kept
    · rw [keep_of_mem member]
      exact ⟨new, rfl, rfl⟩
    · rw [keep_of_not_mem member, Ascending.length_insert member, List.length_cons]
      exact ⟨new + 1, by omega, by omega⟩

/-! ### One step -/

/-- What holds of a search at every step. -/
structure Valid (parents : Lists) (start : Nat) (v : Visit) : Prop where
  ascending : v.kept.Pairwise (· < ·)
  started : start ∈ v.kept
  stacked : ∀ i ∈ v.stack, i ∈ v.kept
  led : ∀ i ∈ v.kept, ReflTransGen (fun a b => b ∈ parents a) start i
  looked : ∀ i ∈ v.kept, i ∈ v.stack ∨ ∀ s ∈ parents i, s ∈ v.kept

theorem valid_start (parents : Lists) (start : Nat) : Valid parents start ⟨[start], [start]⟩ where
  ascending := List.pairwise_singleton _ _
  started := List.mem_singleton_self start
  stacked _ member := member
  led _ member := List.mem_singleton.mp member ▸ .refl
  looked _ member := .inl member

theorem step_cons {rest : List Nat} (stack : v.stack = i :: rest) :
    v.step parents = (parents i).foldl keep ⟨v.kept, rest⟩ := by
  simp only [step, stack]

theorem valid_step {rest : List Nat} (valid : Valid parents start v) (stack : v.stack = k :: rest) :
    Valid parents start (v.step parents) := by
  have kept : k ∈ v.kept := valid.stacked k (stack ▸ List.mem_cons_self)
  rw [step_cons stack]
  constructor
  case ascending => exact keepAll_ascending _ _ valid.ascending
  case started => exact (mem_kept_keepAll _ _).mpr (.inl valid.started)
  case stacked =>
    intro i member
    rw [mem_kept_keepAll]
    rcases (mem_stack_keepAll _ _).mp member with old | ⟨new, _⟩
    · exact .inl (valid.stacked i (stack ▸ List.mem_cons_of_mem k old))
    · exact .inr new
  case led =>
    intro i member
    rcases (mem_kept_keepAll _ _).mp member with old | new
    · exact valid.led i old
    · exact (valid.led k kept).tail new
  case looked =>
    intro i member
    simp only [mem_kept_keepAll, mem_stack_keepAll]
    by_cases old : i ∈ v.kept
    · rcases valid.looked i old with waiting | done
      · rw [stack] at waiting
        rcases List.mem_cons.mp waiting with rfl | later
        · exact .inr fun s source => .inr source
        · exact .inl (.inl later)
      · exact .inr fun s source => .inl (done s source)
    · have new := ((mem_kept_keepAll _ _).mp member).resolve_left old
      exact .inl (.inr ⟨new, old⟩)

/-! ### The whole search -/

/-- Vertices on the stack, and those that may still go there. -/
def work (bound : Nat) (v : Visit) : Nat := v.stack.length + (bound - v.kept.length)

theorem work_step {rest : List Nat} {bound : Nat} (stack : v.stack = k :: rest)
    (few : (v.step parents).kept.length ≤ bound) : (v.step parents).work bound + 1 = v.work bound := by
  obtain ⟨new, stacked, kept⟩ := length_keepAll (parents k) ⟨v.kept, rest⟩
  rw [step_cons stack] at few ⊢
  simp only [work, stack, stacked, kept, List.length_cons] at few ⊢
  omega

/-- With as many steps as there is work the stack is worked off. -/
theorem run_valid {bound : Nat} (few : ∀ v, Valid parents start v → v.kept.length ≤ bound)
    (valid : Valid parents start v) (enough : v.work bound ≤ fuel) :
    Valid parents start (run parents fuel v) ∧ (run parents fuel v).stack = [] := by
  induction fuel generalizing v with
  | zero =>
    refine ⟨valid, List.eq_nil_of_length_eq_zero ?_⟩
    simp only [work] at enough
    simp only [run]
    omega
  | succ fuel ih =>
    rw [run]
    cases stack : v.stack with
    | nil => exact ⟨valid, stack⟩
    | cons k rest =>
      have next := valid_step valid stack
      have less := work_step stack (few _ next)
      exact ih next (by omega)

/-- A search that has worked off its stack has kept what leads to its start. -/
theorem Valid.mem_kept (valid : Valid parents start v) (done : v.stack = []) :
    i ∈ v.kept ↔ ReflTransGen (fun a b => b ∈ parents a) start i := by
  refine ⟨valid.led i, fun way => ?_⟩
  induction way with
  | refl => exact valid.started
  | tail _ source ih =>
    have looked := (valid.looked _ ih).resolve_left (by simp [done])
    exact looked _ source

end Visit

/-- All that is kept but the start is the source of an edge. -/
theorem length_kept_le (valid : Visit.Valid (parentsIn edges) start v) :
    v.kept.length ≤ edges.length + 1 := by
  have inside : v.kept ⊆ start :: edges.map (·.source) := by
    intro i member
    rcases (valid.led i member).cases_tail with same | ⟨b, _, source⟩
    · exact same ▸ List.mem_cons_self
    · obtain ⟨tag, edge⟩ := mem_parentsIn.mp source
      exact List.mem_cons_of_mem _ (List.mem_map.mpr ⟨_, edge, rfl⟩)
  have few := (List.subperm_of_subset valid.ascending.nodup inside).length_le
  simpa using few

theorem keptFrom_valid (edges : List Edge) (start : Nat) : ∃ v,
    keptFrom edges start = v.kept ∧ Visit.Valid (parentsIn edges) start v ∧ v.stack = [] := by
  have enough : Visit.work (edges.length + 1) ⟨[start], [start]⟩ ≤ edges.length + 1 := by
    simp only [Visit.work, List.length_singleton]
    omega
  obtain ⟨valid, done⟩ := Visit.run_valid (fun _ => length_kept_le)
    (Visit.valid_start (parentsIn edges) start) enough
  exact ⟨_, rfl, valid, done⟩

theorem keptFrom_ascending (edges : List Edge) (start : Nat) : (keptFrom edges start).Pairwise (· < ·) := by
  obtain ⟨v, same, valid, _⟩ := keptFrom_valid edges start
  rw [same]
  exact valid.ascending

/-- What is kept is what leads to the start over any number of edges. -/
theorem mem_keptFrom :
    i ∈ keptFrom edges start ↔ ReflTransGen (fun a b => b ∈ parentsIn edges a) start i := by
  obtain ⟨v, same, valid, done⟩ := keptFrom_valid edges start
  rw [same]
  exact valid.mem_kept done

end ProgramDependence.Graph
