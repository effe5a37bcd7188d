import ProgramDependence.Proofs.Flow.BasicBlocks

/-! Where blocks begin and end. The blocks of a body, one after another, are its code; control enters
a block only at its head and leaves it only at its tail. When there is no flow at all, the branch to
blame is the first one that leaves the body. -/
namespace ProgramDependence

namespace Digraph

theorem succs_ascending {g : Digraph} (rows : ∀ row ∈ g.next, row.Pairwise (· < ·)) (i : Nat) :
    (g.succs i).Pairwise (· < ·) := by
  rw [succs, List.getD_eq_getElem?_getD]
  cases there : g.next[i]? with
  | none => exact .nil
  | some row => exact rows row (List.mem_of_getElem? there)

/-- Where no successor is listed twice, no predecessor is. -/
theorem preds_ascending {g : Digraph} (distinct : ∀ i, (g.succs i).Nodup) (j : Nat) :
    (g.preds j).Pairwise (· < ·) := by
  rw [preds_eq_flatMap, List.pairwise_flatMap]
  constructor
  · intro i _
    have once : ((g.succs i).filter fun k => k = j).length ≤ 1 := by
      rw [← List.countP_eq_length_filter]
      exact List.nodup_iff_count_le_one.mp (distinct i) j
    match (g.succs i).filter fun k => k = j, once with
    | [], _ => exact .nil
    | [_], _ => exact List.pairwise_singleton _ _
  · refine List.pairwise_lt_range.imp fun before x first y second => ?_
    obtain ⟨_, _, rfl⟩ := List.mem_map.mp first
    obtain ⟨_, _, rfl⟩ := List.mem_map.mp second
    exact before

end Digraph

/-! ### Branches that leave the body -/

/-- All instructions before this one branch into the body, and so do the earlier targets of this one. -/
def BadTarget.IsFirst (b : Body) (e : BadTarget) : Prop :=
  e.size = b.size ∧ b.size ≤ e.target ∧
    ∃ before s after, b.stmts = before ++ s :: after ∧ before.length = e.instruction ∧
      (∀ s ∈ before, ∀ target ∈ s.targets, target < b.size) ∧
      ∃ earlier later, s.targets = earlier ++ e.target :: later ∧ ∀ target ∈ earlier, target < b.size

namespace Body

variable {b : Body} {flow : Digraph} {policy : Policy} {block : Block} {i j : Nat}

theorem find?_target_eq_some {targets : List Nat} {size target : Nat} :
    (targets.find? fun target => size ≤ target) = some target ↔
      size ≤ target ∧ ∃ earlier later, targets = earlier ++ target :: later ∧
        ∀ target ∈ earlier, target < size := by
  simp [List.find?_eq_some_iff_append]

theorem badTarget?_eq_some {e : BadTarget} : b.badTarget? = some e ↔ e.IsFirst b := by
  rw [badTarget?, List.findSome?_eq_some_iff]
  constructor
  · rintro ⟨before, ⟨s, i⟩, after, split, found, clear⟩
    obtain ⟨target, first, rfl⟩ := Option.map_eq_some_iff.mp found
    obtain ⟨past, targets⟩ := find?_target_eq_some.mp first
    have place : b.stmts.zipIdx[before.length]? = some (s, i) := by simp [split]
    have stmts := congrArg (List.map Prod.fst) split
    rw [List.zipIdx_map_fst, List.map_append, List.map_cons] at stmts
    refine ⟨rfl, past, before.map Prod.fst, s, after.map Prod.fst, stmts, ?_, ?_, targets⟩
    · rw [List.getElem?_zipIdx, Option.map_eq_some_iff] at place
      obtain ⟨_, _, same⟩ := place
      simpa using congrArg Prod.snd same
    · intro s member target branch
      obtain ⟨⟨s, k⟩, listed, rfl⟩ := List.mem_map.mp member
      have none := Option.map_eq_none_iff.mp (clear (s, k) listed)
      simpa using List.find?_eq_none.mp none target branch
  · rintro ⟨size, past, before, s, after, split, length, clear, targets⟩
    refine ⟨before.zipIdx, (s, before.length), after.zipIdx (before.length + 1), ?_, ?_, ?_⟩
    · rw [split, List.zipIdx_append, List.zipIdx_cons, Nat.zero_add]
    · apply Option.map_eq_some_iff.mpr
      exact ⟨e.target, find?_target_eq_some.mpr ⟨past, targets⟩, by rw [length, ← size]⟩
    · intro p member
      rw [Option.map_eq_none_iff, List.find?_eq_none]
      intro target branch
      simpa using clear p.1 (List.fst_mem_of_mem_zipIdx member) target branch

theorem flow?_eq_error {e : BadTarget} : b.flow? = .error e ↔ e.IsFirst b := by
  rw [← badTarget?_eq_some, flow?]
  cases b.badTarget? <;> simp

theorem exists_error_iff :
    (∃ e, b.flow? = .error e) ↔ ∃ s ∈ b.stmts, ∃ target ∈ s.targets, b.size ≤ target := by
  constructor
  · rintro ⟨e, failed⟩
    obtain ⟨_, past, before, s, after, split, _, _, earlier, later, targets, _⟩ :=
      flow?_eq_error.mp failed
    exact ⟨s, by simp [split], e.target, by simp [targets], past⟩
  · rintro ⟨s, member, target, branch, past⟩
    cases found : b.flow? with
    | error e => exact ⟨e, rfl⟩
    | ok flow => exact absurd ((flow?_inv found).1 s member target branch) (Nat.not_lt.mpr past)

theorem flow_succs_ascending (ok : b.flow? = .ok flow) (i : Nat) :
    (flow.succs i).Pairwise (· < ·) := by
  obtain ⟨_, rfl⟩ := flow?_inv ok
  apply Digraph.succs_ascending
  intro row member
  obtain ⟨_, _, rfl⟩ := List.mem_map.mp member
  exact Ascending.ofList_ascending _

end Body

/-! ### Blocks -/

namespace Partition

variable {p : Partition} {flow : Digraph} {policy : Policy} {stmts : List Stmt} {size start i j k : Nat}
  {blocks : List Block} {block target : Block}

/-- Blocks as the later phases take them to be. -/
structure Proper (policy : Policy) (b : Body) (flow : Digraph) (p : Partition) : Prop where
  nonempty : ∀ block ∈ p.blocks, block.first ≤ block.last
  /-- Nothing is left out, and nothing comes twice. -/
  cover : p.blocks.flatMap Block.instructions = List.range b.size
  owner_iff : ∀ k block, p.blocks[k]? = some block →
    ∀ i, p.owner i = k ↔ block.first ≤ i ∧ i ≤ block.last
  edge : ∀ i, ∀ j ∈ flow.succs i, (j = i + 1 ∧ p.owner i = p.owner j) ∨
    ∃ block ∈ p.blocks, ∃ target ∈ p.blocks, block.last = i ∧ target.first = j
  succ_inside : ∀ block ∈ p.blocks, ∀ i, block.first ≤ i → i < block.last → flow.succs i = [i + 1]
  pred_inside : ∀ block ∈ p.blocks, ∀ i, block.first ≤ i → i < block.last → flow.preds (i + 1) = [i]
  succs_ascending : ∀ k, (p.graph.succs k).Pairwise (· < ·)
  preds_ascending : ∀ k, (p.graph.preds k).Pairwise (· < ·)
  inverse : ∀ k l, l ∈ p.graph.succs k ↔ k ∈ p.graph.preds l
  joined : ∀ k l, l ∈ p.graph.succs k ↔ ∃ block, p.blocks[k]? = some block ∧
    ∃ j ∈ flow.succs block.last, p.owner j = l
  call_alone : policy = .expanded → ∀ block ∈ p.blocks, ∀ i, block.first ≤ i → i ≤ block.last →
    ∀ s, b.stmts[i]? = some s → s.call?.isSome → block.first = i ∧ block.last = i
  head_cases : policy = .expanded → ∀ block ∈ p.blocks, block.first ≠ 0 →
    (∃ s ∈ b.stmts, block.first ∈ s.targets) ∨
      (∃ s, b.stmts[block.first - 1]? = some s ∧ (s.endsBlock ∨ s.call?.isSome)) ∨
      (∃ s, b.stmts[block.first]? = some s ∧ s.call?.isSome) ∨
      1 < (flow.preds block.first).length

theorem Tiles.flatMap_instructions (tiles : Tiles size start blocks) :
    blocks.flatMap Block.instructions = List.range' start (size - start) := by
  induction blocks generalizing start with
  | nil =>
    obtain rfl : start = size := tiles
    simp
  | cons b rest ih =>
    obtain ⟨rfl, long, later⟩ := tiles
    have bound := later.start_le
    have length : size - b.first = (b.last + 1 - b.first) + (size - (b.last + 1)) := by omega
    have next : b.last + 1 = b.first + (b.last + 1 - b.first) := by omega
    rw [List.flatMap_cons, ih later, Block.instructions, length, ← List.range'_append_1, ← next]

theorem holds_of_ownerIn (there : blocks[ownerIn blocks i]? = some block) : block.holds i = true := by
  obtain ⟨bound, rfl⟩ := List.getElem?_eq_some_iff.mp there
  exact List.findIdx_getElem (w := bound)

theorem cut_first {leaders : List Nat} (member : block ∈ cut size leaders) : block.first ∈ leaders := by
  induction leaders with
  | nil => cases member
  | cons a leaders ih =>
    cases leaders with
    | nil =>
      obtain rfl : block = ⟨a, size - 1⟩ := by simpa [cut] using member
      exact List.mem_cons_self
    | cons b leaders =>
      rw [cut] at member
      rcases List.mem_cons.mp member with rfl | later
      · exact List.mem_cons_self
      · exact List.mem_cons_of_mem a (ih later)

theorem first_leads (member : block ∈ (compute policy stmts flow).blocks) :
    leads policy stmts flow block.first = true :=
  (mem_leaders.mp (cut_first member)).2

/-- A block of its own begins at a call, and another one after it. -/
theorem call_leads {s : Stmt} (policy : Policy) (flow : Digraph) (there : stmts[i]? = some s)
    (call : s.call?.isSome) : leads policy stmts flow i = true ∧ leads policy stmts flow (i + 1) = true := by
  simp [leads, breaks, isCall, there, call]

theorem call_bounds {s : Stmt} (member : block ∈ (compute policy stmts flow).blocks)
    (low : block.first ≤ i) (high : i ≤ block.last) (there : stmts[i]? = some s)
    (call : s.call?.isSome) : block.first = i ∧ block.last = i := by
  obtain ⟨here, next⟩ := call_leads policy flow there call
  have bound := (block_bounds member).2
  refine ⟨first_of_leads member low high (by omega) here, ?_⟩
  by_contra differs
  have := first_of_leads member (i := i + 1) (by omega) (by omega) (by omega) next
  omega

theorem head_of_leads (leader : leads .expanded stmts flow i = true) (inner : i ≠ 0) :
    (∃ s ∈ stmts, i ∈ s.targets) ∨ (∃ s, stmts[i - 1]? = some s ∧ (s.endsBlock ∨ s.call?.isSome)) ∨
      (∃ s, stmts[i]? = some s ∧ s.call?.isSome) ∨ 1 < (flow.preds i).length := by
  simp only [leads, breaks, inner, decide_false, Bool.false_or, reduceCtorEq, Bool.or_eq_true,
    List.any_eq_true, List.contains_iff_mem, decide_eq_true_eq, Option.any_eq_true,
    Bool.and_eq_true, isCall] at leader
  rcases leader with ((target | several) | call) | ⟨_, ends⟩
  · exact .inl target
  · exact .inr (.inr (.inr several))
  · exact .inr (.inr (.inl call))
  · exact .inr (.inl ends)

namespace IsBasic

theorem owner_iff (basic : IsBasic flow p) (there : p.blocks[k]? = some block) :
    p.owner i = k ↔ block.first ≤ i ∧ i ≤ block.last := by
  constructor
  · rintro rfl
    exact holds_iff.mp (holds_of_ownerIn there)
  · rintro ⟨low, high⟩
    exact basic.owner_eq there low high

/-- What leads to an instruction that is not the head of its block is the one before it. -/
theorem pred_inside (basic : IsBasic flow p) (member : block ∈ p.blocks) (low : block.first ≤ i)
    (high : i < block.last) : i + 1 ∈ flow.succs j ↔ j = i := by
  refine ⟨fun edge => ?_, ?_⟩
  · rcases basic.edge_cases edge with ⟨next, _⟩ | ⟨_, _, target, _, _, atIndex, first⟩
    · omega
    · obtain ⟨k, there⟩ := List.mem_iff_getElem?.mp member
      have owned := basic.owner_eq (i := i + 1) there (by omega) (by omega)
      rw [owned] at atIndex
      obtain rfl := Option.some.inj (there.symm.trans atIndex)
      omega
  · rintro rfl
    exact (basic.inside block member j (j + 1) low high).mpr rfl

end IsBasic

theorem graph_succs_ascending (policy : Policy) (stmts : List Stmt) (flow : Digraph) (k : Nat) :
    ((compute policy stmts flow).graph.succs k).Pairwise (· < ·) := by
  apply Digraph.succs_ascending
  intro row member
  obtain ⟨_, _, rfl⟩ := List.mem_map.mp member
  exact Ascending.ofList_ascending _

end Partition

namespace Body

variable {b : Body} {flow : Digraph}

theorem proper (ok : b.flow? = .ok flow) (policy : Policy) :
    (Partition.compute policy b.stmts flow).Proper policy b flow := by
  have basic := isBasic ok policy
  have distinct (i : Nat) : (flow.succs i).Nodup := (flow_succs_ascending ok i).nodup
  constructor
  case nonempty =>
    intro block member
    exact (Partition.block_bounds member).1
  case cover =>
    have cover := basic.tiles.flatMap_instructions
    rwa [flow_size ok, Nat.sub_zero, ← List.range_eq_range'] at cover
  case owner_iff =>
    intro k block there i
    exact basic.owner_iff there
  case edge =>
    intro i j edge
    rcases basic.edge_cases edge with ⟨next, same⟩ | ⟨_, block, target, there, tail, atIndex, head⟩
    · exact .inl ⟨next, same.symm⟩
    · exact .inr ⟨block, List.mem_of_getElem? there, target, List.mem_of_getElem? atIndex, tail, head⟩
  case succ_inside =>
    intro block member i low high
    apply (flow_succs_ascending ok i).eq_of_mem_iff (List.pairwise_singleton _ _)
    intro j
    rw [basic.inside block member i j low high, List.mem_singleton]
  case pred_inside =>
    intro block member i low high
    apply (Digraph.preds_ascending distinct (i + 1)).eq_of_mem_iff (List.pairwise_singleton _ _)
    intro j
    rw [Digraph.mem_preds, basic.pred_inside member low high, List.mem_singleton]
  case succs_ascending => exact Partition.graph_succs_ascending policy b.stmts flow
  case preds_ascending =>
    exact Digraph.preds_ascending fun k => (Partition.graph_succs_ascending policy b.stmts flow k).nodup
  case inverse =>
    intro k l
    exact Digraph.mem_preds.symm
  case joined => exact basic.joined
  case call_alone =>
    rintro rfl block member i low high s there call
    exact Partition.call_bounds member low high there call
  case head_cases =>
    rintro rfl block member inner
    exact Partition.head_of_leads (Partition.first_leads member) inner

end Body

/-- There is flow unless a branch leaves the body, and then the first such branch is reported. Where
there is flow, the blocks of either policy are a partition of the code into basic blocks. -/
theorem blocks_partition_code (b : Body) :
    ((∃ e, b.flow? = .error e) ↔ ∃ s ∈ b.stmts, ∃ target ∈ s.targets, b.size ≤ target) ∧
      (∀ e, b.flow? = .error e ↔ e.IsFirst b) ∧
      ∀ flow, b.flow? = .ok flow → ∀ policy,
        (Partition.compute policy b.stmts flow).Proper policy b flow :=
  ⟨Body.exists_error_iff, fun _ => Body.flow?_eq_error, fun _ ok policy => Body.proper ok policy⟩

/-- A jump into straight code by a target that comes twice, a jump to the next instruction, a call, and
code that nothing leads to and that runs off the end. -/
def tangled : Body where
  locals := []
  code := [
    ⟨.identity "n" (.parameter 0 "int"), .zero⟩,
    ⟨.assign (.localVar "m") (.localVar "n"), .zero⟩,
    ⟨.assign (.localVar "n") (.negate (.localVar "m")), .zero⟩,
    ⟨.nop, .zero⟩,
    ⟨.assign (.localVar "m") (.staticCall "p.C" "f" [] "int" []), .zero⟩,
    ⟨.branch (.localVar "m") 6, .zero⟩,
    ⟨.switch (.localVar "m") [2, 2] 7, .zero⟩,
    ⟨.ret none, .zero⟩,
    ⟨.nop, .zero⟩,
    ⟨.nop, .zero⟩]

def tangledFlow : Digraph := ⟨[[1], [2], [3], [4], [5], [6], [2, 7], [], [9], []]⟩

/-- The second instruction leaves the body by the second of its targets, and the third does too. -/
def astray : Body where
  locals := []
  code := [
    ⟨.branch (.localVar "n") 2, .zero⟩,
    ⟨.switch (.localVar "n") [0, 7, 9] 3, .zero⟩,
    ⟨.goto 8, .zero⟩]

theorem tangled_partition :
    (tangled.flow? = .ok tangledFlow ∧
      (Partition.compute .expanded tangled.stmts tangledFlow).blocks =
        [⟨0, 1⟩, ⟨2, 3⟩, ⟨4, 4⟩, ⟨5, 5⟩, ⟨6, 6⟩, ⟨7, 7⟩, ⟨8, 9⟩] ∧
      (Partition.compute .expanded tangled.stmts tangledFlow).Proper .expanded tangled tangledFlow) ∧
    astray.flow? = .error ⟨1, 7, 3⟩ ∧ BadTarget.IsFirst astray ⟨1, 7, 3⟩ := by
  have ok : tangled.flow? = .ok tangledFlow := rfl
  have failed : astray.flow? = .error ⟨1, 7, 3⟩ := rfl
  refine ⟨⟨ok, by decide, (blocks_partition_code tangled).2.2 tangledFlow ok .expanded⟩, failed, ?_⟩
  exact ((blocks_partition_code astray).2.1 _).mp failed

end ProgramDependence
