import ProgramDependence.Proofs.Flow.Partition

/-! Flow between blocks is flow between instructions seen from further away. Control enters a block
at its first instruction and leaves it at its last, so the edges between blocks are the edges
between instructions, less the steps inside blocks. -/
namespace ProgramDependence

namespace Partition

variable {p : Partition} {flow : Digraph} {size i j k : Nat} {block target : Block}

/-- What makes the blocks basic blocks of a flow, and the graph the graph between them. -/
structure IsBasic (flow : Digraph) (p : Partition) : Prop where
  closed : flow.Closed
  tiles : Tiles flow.size 0 p.blocks
  inside : ∀ block ∈ p.blocks, ∀ i j, block.first ≤ i → i < block.last →
    (j ∈ flow.succs i ↔ j = i + 1)
  enters : ∀ block ∈ p.blocks, ∀ j ∈ flow.succs block.last, ∃ target ∈ p.blocks, target.first = j
  size : p.graph.size = p.blocks.length
  succs : ∀ k block, p.blocks[k]? = some block → ∀ s,
    s ∈ p.graph.succs k ↔ ∃ j ∈ flow.succs block.last, p.owner j = s

namespace IsBasic

theorem owner_block (basic : IsBasic flow p) (bound : i < flow.size) :
    ∃ block, p.blocks[p.owner i]? = some block ∧ block.first ≤ i ∧ i ≤ block.last := by
  obtain ⟨block, there, held⟩ := basic.tiles.owner_holds (Nat.zero_le i) bound
  exact ⟨block, there, holds_iff.mp held⟩

theorem owner_eq (basic : IsBasic flow p) (there : p.blocks[k]? = some block)
    (low : block.first ≤ i) (high : i ≤ block.last) : p.owner i = k :=
  basic.tiles.owner_eq there (holds_iff.mpr ⟨low, high⟩)

theorem owner_first (basic : IsBasic flow p) (there : p.blocks[k]? = some block) :
    p.owner block.first = k :=
  basic.owner_eq there (Nat.le_refl _) (basic.tiles.bounds there).2.1

theorem owner_last (basic : IsBasic flow p) (there : p.blocks[k]? = some block) :
    p.owner block.last = k :=
  basic.owner_eq there (basic.tiles.bounds there).2.1 (Nat.le_refl _)

theorem last_lt (basic : IsBasic flow p) (there : p.blocks[k]? = some block) :
    block.last < flow.size :=
  (basic.tiles.bounds there).2.2

/-- The block at the number of an instruction's owner holds the instruction. -/
theorem holds_of_owner (basic : IsBasic flow p) (bound : i < flow.size)
    (there : p.blocks[p.owner i]? = some block) : block.first ≤ i ∧ i ≤ block.last := by
  obtain ⟨block', there', holds⟩ := basic.owner_block bound
  obtain rfl := Option.some.inj (there.symm.trans there')
  exact holds

/-- What comes right after a block is not in it. -/
theorem owner_after (basic : IsBasic flow p) (there : p.blocks[k]? = some block)
    (bound : block.last + 1 < flow.size) : p.owner (block.last + 1) ≠ k := by
  rintro rfl
  obtain ⟨_, high⟩ := basic.holds_of_owner bound there
  omega

/-- An edge is a step inside a block, or leads from the last instruction of one to the first of
one. -/
theorem edge_cases (basic : IsBasic flow p) (edge : j ∈ flow.succs i) :
    (j = i + 1 ∧ p.owner j = p.owner i) ∨
      (¬(p.owner i = p.owner j ∧ j = i + 1) ∧
        ∃ block target, p.blocks[p.owner i]? = some block ∧ block.last = i ∧
          p.blocks[p.owner j]? = some target ∧ target.first = j) := by
  obtain ⟨block, there, low, high⟩ := basic.owner_block (Digraph.lt_of_mem_succs edge)
  have member := List.mem_of_getElem? there
  rcases Nat.lt_or_eq_of_le high with before | rfl
  · obtain rfl := (basic.inside block member i j low before).mp edge
    exact .inl ⟨rfl, basic.owner_eq there (by omega) before⟩
  · obtain ⟨target, listed, rfl⟩ := basic.enters block member j edge
    obtain ⟨k, atIndex⟩ := List.mem_iff_getElem?.mp listed
    have owned := basic.owner_first atIndex
    refine .inr ⟨?_, block, target, there, rfl, owned ▸ atIndex, rfl⟩
    rintro ⟨same, next⟩
    have bound := basic.closed _ _ edge
    rw [next] at bound same
    exact basic.owner_after there bound same.symm

theorem joined (basic : IsBasic flow p) (k l : Nat) : l ∈ p.graph.succs k ↔
    ∃ block, p.blocks[k]? = some block ∧ ∃ j ∈ flow.succs block.last, p.owner j = l := by
  constructor
  · intro edge
    have bound := Digraph.lt_of_mem_succs edge
    rw [basic.size] at bound
    have there := List.getElem?_eq_getElem bound
    exact ⟨_, there, (basic.succs k _ there l).mp edge⟩
  · rintro ⟨block, there, leaves⟩
    exact (basic.succs k block there l).mpr leaves

/-- Blocks are joined by the edges between instructions that are no steps inside a block. -/
theorem mem_succs_iff (basic : IsBasic flow p) : j ∈ p.graph.succs k ↔
    ∃ s t, t ∈ flow.succs s ∧ ¬(p.owner s = p.owner t ∧ t = s + 1) ∧ p.owner s = k ∧
      p.owner t = j := by
  constructor
  · intro edge
    obtain ⟨block, there, t, link, rfl⟩ := (basic.joined k j).mp edge
    have owned := basic.owner_last there
    refine ⟨_, t, link, ?_, owned, rfl⟩
    rintro ⟨same, rfl⟩
    exact basic.owner_after there (basic.closed _ _ link) (same.symm.trans owned)
  · rintro ⟨s, t, link, leaves, rfl, rfl⟩
    rcases basic.edge_cases link with ⟨next, same⟩ | ⟨_, block, target, there, rfl, _⟩
    · exact absurd ⟨same.symm, next⟩ leaves
    · exact (basic.succs _ block there _).mpr ⟨t, link, rfl⟩

/-- Something leads to a block if something leads to its first instruction. -/
theorem entered_iff (basic : IsBasic flow p) (there : p.blocks[k]? = some block) :
    (∃ x, k ∈ p.graph.succs x) ↔ ∃ i, block.first ∈ flow.succs i := by
  constructor
  · rintro ⟨x, edge⟩
    obtain ⟨s, t, link, leaves, _, rfl⟩ := basic.mem_succs_iff.mp edge
    rcases basic.edge_cases link with ⟨next, same⟩ | ⟨_, _, target, _, _, atIndex, rfl⟩
    · exact absurd ⟨same.symm, next⟩ leaves
    · obtain rfl := Option.some.inj (there.symm.trans atIndex)
      exact ⟨s, link⟩
  · rintro ⟨i, link⟩
    refine ⟨p.owner i, basic.mem_succs_iff.mpr ⟨i, block.first, link, ?_, rfl, basic.owner_first there⟩⟩
    rintro ⟨same, next⟩
    rw [basic.owner_first there] at same
    subst same
    have low := (basic.holds_of_owner (Digraph.lt_of_mem_succs link) there).1
    omega

end IsBasic

theorem leads_of_target {policy : Policy} {stmts : List Stmt} {s : Stmt} (member : s ∈ stmts)
    (branch : i ∈ s.targets) : leads policy stmts flow i = true := by
  have some : stmts.any (fun s => s.targets.contains i) = true :=
    List.any_eq_true.mpr ⟨s, member, by simpa using branch⟩
  simp only [leads, breaks, some, Bool.true_or, Bool.or_true]

/-- An instruction that starts a block is the first of the one that holds it. -/
theorem first_of_leads {policy : Policy} {stmts : List Stmt}
    (member : block ∈ (compute policy stmts flow).blocks) (low : block.first ≤ i)
    (high : i ≤ block.last) (bound : i < stmts.length) (leader : leads policy stmts flow i = true) :
    block.first = i := by
  by_contra differs
  have listed : i ∈ leaders policy stmts flow := mem_leaders.mpr ⟨bound, leader⟩
  have := cut_leader _ (leaders_ascending policy stmts flow) (fun _ => leaders_lt) member listed
    (by omega)
  omega

end Partition

namespace Body

variable {b : Body} {flow : Digraph} {policy : Policy} {block : Block} {i j : Nat}

theorem mem_succs_inside (ok : b.flow? = .ok flow)
    (there : block ∈ (Partition.compute policy b.stmts flow).blocks) (low : block.first ≤ i)
    (high : i < block.last) : j ∈ flow.succs i ↔ j = i + 1 := by
  constructor
  · exact succ_inside ok there low high
  · rintro rfl
    obtain ⟨s, atIndex, inner⟩ := Partition.not_endsBlock_of_inside there low high
    obtain ⟨falls, _⟩ := Partition.falls_of_not_endsBlock inner
    have bound := (Partition.block_bounds there).2
    rw [length_stmts] at bound
    exact (mem_flow_succs ok).mpr ⟨s, atIndex, .inl ⟨falls, by omega, rfl⟩⟩

/-- What leaves a block goes to the instruction after it, where the next block starts, or to a
branch target, where a block starts under every policy. -/
theorem first_of_leaving (ok : b.flow? = .ok flow)
    (there : block ∈ (Partition.compute policy b.stmts flow).blocks) (edge : j ∈ flow.succs block.last) :
    ∃ target ∈ (Partition.compute policy b.stmts flow).blocks, target.first = j := by
  have tiles := Partition.compute_tiles policy b.stmts flow
  have bound : j < b.stmts.length := by
    rw [length_stmts, ← flow_size ok]
    exact flow_closed ok _ _ edge
  obtain ⟨target, listed, held⟩ := tiles.owner_holds (Nat.zero_le j) bound
  obtain ⟨low, high⟩ := Partition.holds_iff.mp held
  have member := List.mem_of_getElem? listed
  refine ⟨target, member, ?_⟩
  obtain ⟨s, atIndex, ⟨_, _, rfl⟩ | branch⟩ := (mem_flow_succs ok).mp edge
  · by_contra differs
    obtain ⟨k, listed'⟩ := List.mem_iff_getElem?.mp there
    have long := (tiles.bounds listed').2.1
    have same := (tiles.owner_eq listed' (Partition.holds_iff.mpr ⟨long, Nat.le_refl _⟩)).symm.trans
      (tiles.owner_eq listed (Partition.holds_iff.mpr ⟨by omega, by omega⟩))
    rw [same] at listed'
    obtain rfl := Option.some.inj (listed.symm.trans listed')
    omega
  · exact Partition.first_of_leads member low high bound
      (Partition.leads_of_target (List.mem_of_getElem? atIndex) branch)

/-- The blocks of a body are basic blocks under every policy. -/
theorem isBasic (ok : b.flow? = .ok flow) (policy : Policy) :
    Partition.IsBasic flow (.compute policy b.stmts flow) where
  closed := flow_closed ok
  tiles := by
    rw [flow_size ok, ← length_stmts]
    exact Partition.compute_tiles policy b.stmts flow
  inside _ there _ _ low high := mem_succs_inside ok there low high
  enters _ there _ edge := first_of_leaving ok there edge
  size := Partition.graph_size policy b.stmts flow
  succs k block there s := by
    have there : (Partition.cut b.stmts.length (Partition.leaders policy b.stmts flow))[k]? =
        some block := there
    simp only [Partition.compute, Digraph.succs, List.getD_eq_getElem?_getD, List.getElem?_map, there,
      Option.map_some, Option.getD_some, Ascending.mem_ofList, List.mem_map]
    rfl

end Body
end ProgramDependence
