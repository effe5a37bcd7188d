import ProgramDependence.Proofs.Flow.BasicBlocks
import ProgramDependence.Proofs.PostDominance.Frontier

/-! Control dependence is the same for instructions and for blocks. A way out of the instruction
flow goes block by block, and a way out of the block graph can be walked instruction by instruction,
so a node has a way out, is avoided or is bound to be come to in both or in neither. What governs has
two ways on, and only the last instruction of a block has. -/
namespace ProgramDependence

namespace Digraph

variable {g : Digraph} {b d x y : Nat} {path : List Nat}

/-- There is a way out that does not come back to where it starts. -/
theorem ExitPath.once (way : g.ExitPath b path) : ∃ rest, g.ExitPath b (b :: rest) ∧ b ∉ rest := by
  induction length : path.length using Nat.strongRecOn generalizing path with
  | _ n ih =>
    subst length
    cases way with
    | exit bound none => exact ⟨[], .exit bound none, List.not_mem_nil⟩
    | @step _ s path edge more =>
      by_cases again : b ∈ path
      · obtain ⟨tail, rest, isTail⟩ := more.rest again
        exact ih tail.length (Nat.lt_succ_of_le isTail.length_le) rest rfl
      · exact ⟨path, .step edge more, again⟩

theorem ExitPath.eq_cons (way : g.ExitPath b path) : ∃ rest, path = b :: rest := by
  cases way with
  | exit _ _ => exact ⟨_, rfl⟩
  | step _ _ => exact ⟨_, rfl⟩

/-- What governs has two ways on. -/
theorem Governs.branches (governs : g.Governs x y) :
    ∃ s ∈ g.succs x, ∃ t ∈ g.succs x, s ≠ t := by
  obtain ⟨⟨s, edge, free, dominates⟩, other⟩ := governs
  by_contra single
  simp only [not_exists, not_and, not_not] at single
  have only (rest : List Nat) (way : g.ExitPath x (x :: rest)) : y ∈ rest := by
    cases way with
    | exit _ none => simp [none] at edge
    | step link more =>
      obtain rfl := single s edge _ link
      exact dominates rest more
  rcases other with rfl | ⟨path, way, avoids⟩
  · obtain ⟨path, way⟩ := not_stuck.mp (not_stuck_of_succ edge free)
    obtain ⟨rest, once, absent⟩ := way.once
    exact absent (only rest once)
  · obtain ⟨rest, rfl⟩ := way.eq_cons
    exact avoids (List.mem_cons_of_mem x (only rest way))

end Digraph

namespace Partition

variable {p : Partition} {flow : Digraph} {i j k s x y : Nat} {block target : Block}
  {path rest : List Nat}

/-- From instruction `i` to the end of its block and then through the blocks `rest`, control comes by
instruction `j`. -/
def Meets (p : Partition) (i : Nat) (rest : List Nat) (j : Nat) : Prop :=
  (p.owner j = p.owner i ∧ i ≤ j) ∨ p.owner j ∈ rest

/-- A path out of `i` over exactly what is met through `rest`. -/
def Traced (flow : Digraph) (p : Partition) (i : Nat) (rest : List Nat) : Prop :=
  ∃ path, flow.ExitPath i path ∧ ∀ j < flow.size, (j ∈ path ↔ p.Meets i rest j)

namespace IsBasic

theorem eq_last_iff (basic : IsBasic flow p) (there : p.blocks[p.owner i]? = some block)
    (last : block.last = i) (bound : j < flow.size) : (p.owner j = p.owner i ∧ i ≤ j) ↔ j = i := by
  constructor
  · rintro ⟨same, after⟩
    have := (basic.holds_of_owner bound (same ▸ there)).2
    omega
  · rintro rfl
    exact ⟨rfl, Nat.le_refl _⟩

theorem meets_nil (basic : IsBasic flow p) (there : p.blocks[p.owner i]? = some block)
    (last : block.last = i) (bound : j < flow.size) : p.Meets i [] j ↔ j = i := by
  rw [Meets, basic.eq_last_iff there last bound]
  simp

theorem meets_next (next : p.owner (i + 1) = p.owner i) :
    p.Meets i rest j ↔ j = i ∨ p.Meets (i + 1) rest j := by
  simp only [Meets, next]
  constructor
  · rintro (⟨same, after⟩ | later)
    · rcases Nat.eq_or_lt_of_le after with rfl | strict
      · exact .inl rfl
      · exact .inr (.inl ⟨same, strict⟩)
    · exact .inr (.inr later)
  · rintro (rfl | ⟨same, after⟩ | later)
    · exact .inl ⟨rfl, Nat.le_refl _⟩
    · exact .inl ⟨same, by omega⟩
    · exact .inr later

/-- On into the next block: that is entered at its first instruction, so all of it is met. -/
theorem meets_enter (basic : IsBasic flow p) (there : p.blocks[p.owner i]? = some block)
    (last : block.last = i) (here : p.blocks[p.owner s]? = some target) (first : target.first = s)
    (bound : j < flow.size) : p.Meets i (p.owner s :: rest) j ↔ j = i ∨ p.Meets s rest j := by
  have entered : (p.owner j = p.owner s ∧ s ≤ j) ↔ p.owner j = p.owner s := by
    refine and_iff_left_of_imp fun same => ?_
    rw [← first]
    exact (basic.holds_of_owner bound (same ▸ here)).1
  rw [Meets, Meets, basic.eq_last_iff there last bound, entered, List.mem_cons]

/-! ### From instructions to blocks -/

theorem succs_eq_nil (basic : IsBasic flow p) (there : p.blocks[k]? = some block) :
    p.graph.succs k = [] ↔ flow.succs block.last = [] := by
  simp only [List.eq_nil_iff_forall_not_mem, basic.succs k block there]
  constructor
  · intro none t edge
    exact none (p.owner t) ⟨t, edge, rfl⟩
  · rintro none s ⟨t, edge, _⟩
    exact none t edge

/-- An instruction without successors ends its block. -/
theorem last_of_exit (basic : IsBasic flow p) (bound : i < flow.size) (none : flow.succs i = []) :
    ∃ block, p.blocks[p.owner i]? = some block ∧ block.last = i := by
  obtain ⟨block, there, low, high⟩ := basic.owner_block bound
  refine ⟨block, there, ?_⟩
  by_contra differs
  have inside := basic.inside block (List.mem_of_getElem? there) i (i + 1) low (by omega)
  simp [none] at inside

theorem owner_lt (basic : IsBasic flow p) (bound : i < flow.size) : p.owner i < p.graph.size := by
  rw [basic.size]
  exact basic.tiles.owner_lt bound

theorem exitPath_blocks (basic : IsBasic flow p) (way : flow.ExitPath i path) :
    ∃ rest, p.graph.ExitPath (p.owner i) (p.owner i :: rest) ∧
      ∀ j < flow.size, (j ∈ path ↔ p.Meets i rest j) := by
  induction way with
  | @exit i bound none =>
    obtain ⟨block, there, last⟩ := basic.last_of_exit bound none
    refine ⟨[], .exit (basic.owner_lt bound) ?_, fun j inside => ?_⟩
    · apply (basic.succs_eq_nil there).mpr
      rw [last]
      exact none
    · rw [basic.meets_nil there last inside, List.mem_singleton]
  | @step i s path edge more ih =>
    obtain ⟨rest, way, met⟩ := ih
    rcases basic.edge_cases edge with ⟨rfl, same⟩ | ⟨leaves, block, target, there, last, here, first⟩
    · refine ⟨rest, same ▸ way, fun j inside => ?_⟩
      rw [List.mem_cons, met j inside, meets_next same]
    · have link := basic.mem_succs_iff.mpr ⟨i, s, edge, leaves, rfl, rfl⟩
      refine ⟨p.owner s :: rest, .step link way, fun j inside => ?_⟩
      rw [List.mem_cons, met j inside, basic.meets_enter there last here first inside]

/-! ### From blocks to instructions -/

theorem traced_next (edge : i + 1 ∈ flow.succs i) (next : p.owner (i + 1) = p.owner i)
    (traced : Traced flow p (i + 1) rest) : Traced flow p i rest := by
  obtain ⟨path, way, met⟩ := traced
  refine ⟨i :: path, .step edge way, fun j inside => ?_⟩
  rw [List.mem_cons, met j inside, meets_next next]

theorem traced_inside (basic : IsBasic flow p) (there : p.blocks[k]? = some block)
    (traced : Traced flow p block.last rest) (low : block.first ≤ i) (high : i ≤ block.last) :
    Traced flow p i rest := by
  induction distance : block.last - i generalizing i with
  | zero =>
    obtain rfl : i = block.last := by omega
    exact traced
  | succ n ih =>
    have edge := (basic.inside block (List.mem_of_getElem? there) i (i + 1) low (by omega)).mpr rfl
    have next : p.owner (i + 1) = p.owner i := by
      rw [basic.owner_eq there low high, basic.owner_eq there (by omega) (by omega)]
    exact traced_next edge next (ih (by omega) (by omega) (by omega))

theorem traced_enter (basic : IsBasic flow p) (there : p.blocks[k]? = some block)
    (edge : s ∈ flow.succs block.last) (traced : Traced flow p s rest) :
    Traced flow p block.last (p.owner s :: rest) := by
  obtain ⟨path, way, met⟩ := traced
  have owned := basic.owner_last there
  rcases basic.edge_cases edge with ⟨rfl, same⟩ | ⟨_, _, target, atLast, last, here, first⟩
  · exact absurd (same.trans owned) (basic.owner_after there (basic.closed _ _ edge))
  · refine ⟨block.last :: path, .step edge way, fun j inside => ?_⟩
    rw [List.mem_cons, met j inside, basic.meets_enter atLast last here first inside]

theorem exitPath_traced (basic : IsBasic flow p) (way : p.graph.ExitPath k (k :: rest))
    (there : p.blocks[k]? = some block) : Traced flow p block.last rest := by
  generalize whole : k :: rest = blocks at way
  induction way generalizing rest block with
  | exit bound none =>
    obtain rfl := (List.cons.inj whole).2
    have owned := basic.owner_last there
    refine ⟨[block.last], .exit (basic.last_lt there) ((basic.succs_eq_nil there).mp none), ?_⟩
    intro j inside
    rw [basic.meets_nil (owned.symm ▸ there) rfl inside, List.mem_singleton]
  | @step k s blocks edge more ih =>
    obtain rfl := (List.cons.inj whole).2
    obtain ⟨t, link, rfl⟩ := (basic.succs k block there s).mp edge
    obtain ⟨rest', rfl⟩ := more.eq_cons
    obtain ⟨target, here, low, high⟩ := basic.owner_block (basic.closed _ _ link)
    exact basic.traced_enter there link (basic.traced_inside here (ih here rfl) low high)

/-- A way out of the block of `i` can be walked from `i`. -/
theorem exitPath_walked (basic : IsBasic flow p) (bound : i < flow.size)
    (way : p.graph.ExitPath (p.owner i) (p.owner i :: rest)) : Traced flow p i rest := by
  obtain ⟨block, there, low, high⟩ := basic.owner_block bound
  exact basic.traced_inside there (basic.exitPath_traced way there) low high

/-! ### Control dependence -/

theorem stuck_iff (basic : IsBasic flow p) (bound : i < flow.size) :
    flow.Stuck i ↔ p.graph.Stuck (p.owner i) := by
  rw [← not_iff_not, Digraph.not_stuck, Digraph.not_stuck]
  constructor
  · rintro ⟨path, way⟩
    obtain ⟨rest, way', _⟩ := basic.exitPath_blocks way
    exact ⟨_, way'⟩
  · rintro ⟨blocks, way⟩
    obtain ⟨rest, rfl⟩ := way.eq_cons
    obtain ⟨path, way', _⟩ := basic.exitPath_walked bound way
    exact ⟨path, way'⟩

/-- What governs is the last instruction of its block. -/
theorem last_of_governs (basic : IsBasic flow p) (governs : flow.Governs x y) :
    ∃ block, p.blocks[p.owner x]? = some block ∧ block.last = x := by
  obtain ⟨s, first, t, second, differs⟩ := governs.branches
  obtain ⟨block, there, low, high⟩ := basic.owner_block (Digraph.lt_of_mem_succs first)
  refine ⟨block, there, ?_⟩
  by_contra inner
  have inside (j : Nat) := basic.inside block (List.mem_of_getElem? there) x j low (by omega)
  exact differs (((inside s).mp first).trans ((inside t).mp second).symm)

theorem blocks_postDominate (basic : IsBasic flow p) (inside : s < flow.size) (bound : y < flow.size)
    (dominates : flow.PostDominates y s) : p.graph.PostDominates (p.owner y) (p.owner s) := by
  intro blocks way
  obtain ⟨rest, rfl⟩ := way.eq_cons
  obtain ⟨path, walked, met⟩ := basic.exitPath_walked inside way
  rcases (met y bound).mp (dominates path walked) with ⟨same, _⟩ | later
  · rw [same]
    exact List.mem_cons_self
  · exact List.mem_cons_of_mem _ later

/-- From its first instruction on, all of a block is bound to be reached. -/
theorem postDominates_of_blocks (basic : IsBasic flow p) (here : p.blocks[p.owner s]? = some target)
    (first : target.first = s) (bound : y < flow.size)
    (dominates : p.graph.PostDominates (p.owner y) (p.owner s)) : flow.PostDominates y s := by
  intro path way
  obtain ⟨rest, blocks, met⟩ := basic.exitPath_blocks way
  apply (met y bound).mpr
  rcases List.mem_cons.mp (dominates _ blocks) with same | later
  · refine .inl ⟨same, ?_⟩
    rw [← first]
    exact (basic.holds_of_owner bound (same ▸ here)).1
  · exact .inr later

/-- From the end of a block there is a way out that does not come back to an instruction further up
in it. -/
theorem exitPath_avoiding (basic : IsBasic flow p) (there : p.blocks[p.owner y]? = some block)
    (before : y < block.last) (free : ¬flow.Stuck y) :
    ∃ path, flow.ExitPath block.last path ∧ y ∉ path := by
  obtain ⟨path, way⟩ := Digraph.not_stuck.mp free
  obtain ⟨rest, once, absent⟩ := way.once
  obtain ⟨_, _, met⟩ := basic.exitPath_blocks once
  have passed : block.last ∈ y :: rest :=
    (met _ (basic.last_lt there)).mpr (.inl ⟨basic.owner_last there, Nat.le_of_lt before⟩)
  rcases List.mem_cons.mp passed with same | later
  · omega
  · cases once with
    | exit _ _ => cases later
    | step _ more =>
      obtain ⟨tail, rest, isTail⟩ := more.rest later
      exact ⟨tail, rest, fun again => absent (isTail.subset again)⟩

/-- An instruction is governed by the last instructions of the blocks that govern its block. -/
theorem governs_iff (basic : IsBasic flow p) (bound : y < flow.size) : flow.Governs x y ↔
    ∃ k block, p.graph.Governs k (p.owner y) ∧ p.blocks[k]? = some block ∧ block.last = x := by
  constructor
  · intro governs
    obtain ⟨block, there, last⟩ := basic.last_of_governs governs
    obtain ⟨⟨s, edge, free, dominates⟩, other⟩ := governs
    have inside := basic.closed _ _ edge
    refine ⟨p.owner x, block, ⟨⟨p.owner s, ?_, ?_, ?_⟩, ?_⟩, there, last⟩
    · exact (basic.succs _ block there _).mpr ⟨s, last ▸ edge, rfl⟩
    · exact mt (basic.stuck_iff inside).mpr free
    · exact basic.blocks_postDominate inside bound dominates
    · by_cases same : p.owner x = p.owner y
      · exact .inl same
      · rcases other with rfl | ⟨path, way, avoids⟩
        · exact absurd rfl same
        · obtain ⟨rest, blocks, met⟩ := basic.exitPath_blocks way
          refine .inr ⟨_, blocks, fun passed => ?_⟩
          rcases List.mem_cons.mp passed with here | later
          · exact same here.symm
          · exact avoids ((met y bound).mpr (.inr later))
  · rintro ⟨k, block, ⟨⟨s, edge, free, dominates⟩, other⟩, there, rfl⟩
    obtain ⟨t, link, rfl⟩ := (basic.succs k block there s).mp edge
    have owned := basic.owner_last there
    have inside := basic.closed _ _ link
    obtain ⟨target, listed, first⟩ := basic.enters block (List.mem_of_getElem? there) t link
    have here : p.blocks[p.owner t]? = some target := by
      obtain ⟨index, atIndex⟩ := List.mem_iff_getElem?.mp listed
      rw [← first, basic.owner_first atIndex]
      exact atIndex
    refine ⟨⟨t, link, mt (basic.stuck_iff inside).mp free,
      basic.postDominates_of_blocks here first bound dominates⟩, ?_⟩
    by_cases last : block.last = y
    · exact .inl last
    · rcases other with rfl | ⟨blocks, way, avoids⟩
      · have holds := basic.holds_of_owner bound there
        have freeBlock := Digraph.not_stuck_of_succ edge free
        exact .inr (basic.exitPath_avoiding there (by omega)
          (mt (basic.stuck_iff bound).mp freeBlock))
      · obtain ⟨rest, rfl⟩ := way.eq_cons
        obtain ⟨path, walked, met⟩ := basic.exitPath_traced way there
        refine .inr ⟨path, walked, fun passed => avoids ?_⟩
        rcases (met y bound).mp passed with ⟨same, _⟩ | later
        · rw [same, owned]
          exact List.mem_cons_self
        · exact List.mem_cons_of_mem _ later

/-! ### Frontiers -/

theorem graph_closed (basic : IsBasic flow p) : p.graph.Closed := by
  intro k s edge
  obtain ⟨_, t, link, _, _, rfl⟩ := basic.mem_succs_iff.mp edge
  exact basic.owner_lt (basic.closed _ _ link)

theorem exact_of_compute (basic : IsBasic flow p) {frontiers : Frontiers}
    (found : Frontiers.compute p.graph = .ok frontiers) : frontiers.Exact p.graph := by
  rcases Frontiers.compute_cases basic.graph_closed with ⟨_, failed⟩ | ⟨_, frontiers', ok, known⟩
  · cases found.symm.trans failed
  · obtain rfl := Except.ok.inj (found.symm.trans ok)
    exact known

/-- Frontiers are abandoned if there are instructions and none reaches an exit. -/
theorem compute_error_iff (basic : IsBasic flow p) :
    (∃ e, Frontiers.compute p.graph = .error e) ↔ 0 < flow.size ∧ ∀ i < flow.size, flow.Stuck i := by
  have noExit : (0 < p.graph.size ∧ ∀ k < p.graph.size, p.graph.Stuck k) ↔
      0 < flow.size ∧ ∀ i < flow.size, flow.Stuck i := by
    constructor
    · rintro ⟨some, stuck⟩
      refine ⟨?_, fun i bound => (basic.stuck_iff bound).mpr (stuck _ (basic.owner_lt bound))⟩
      rw [basic.size] at some
      have := basic.last_lt (List.getElem?_eq_getElem some)
      omega
    · rintro ⟨some, stuck⟩
      refine ⟨Nat.lt_of_le_of_lt (Nat.zero_le _) (basic.owner_lt some), fun k bound => ?_⟩
      rw [basic.size] at bound
      have there := List.getElem?_eq_getElem bound
      have inside := basic.last_lt there
      rw [← basic.owner_last there]
      exact (basic.stuck_iff inside).mp (stuck _ inside)
  rw [← noExit]
  rcases Frontiers.compute_cases basic.graph_closed with ⟨none, failed⟩ | ⟨some, _, ok, _⟩
  · exact ⟨fun _ => none, fun _ => ⟨_, failed⟩⟩
  · refine ⟨?_, fun none => absurd none some⟩
    rintro ⟨e, failed⟩
    cases ok.symm.trans failed

theorem mem_stuck_iff (basic : IsBasic flow p) {frontiers : Frontiers}
    (found : Frontiers.compute p.graph = .ok frontiers) (bound : i < flow.size) :
    p.owner i ∈ frontiers.stuck ↔ flow.Stuck i := by
  rw [(basic.exact_of_compute found).mem_stuck, basic.stuck_iff bound]
  exact and_iff_right (basic.owner_lt bound)

/-- The last instructions of the blocks in a frontier are what governs the instructions of the
block. -/
theorem exists_frontier_iff (basic : IsBasic flow p) {frontiers : Frontiers}
    (found : Frontiers.compute p.graph = .ok frontiers) (bound : i < flow.size)
    (free : ¬flow.Stuck i) : (∃ k ∈ frontiers.frontier (p.owner i), ∃ block,
      p.blocks[k]? = some block ∧ block.last = x) ↔ flow.Governs x i := by
  have known (k : Nat) := (basic.exact_of_compute found).mem_frontier k (p.owner i)
    (mt (basic.stuck_iff bound).mpr free)
  simp only [basic.governs_iff bound, known]
  constructor
  · rintro ⟨k, governs, block, there, last⟩
    exact ⟨k, block, governs, there, last⟩
  · rintro ⟨k, block, governs, there, last⟩
    exact ⟨k, governs, block, there, last⟩

end IsBasic

/-! ### Single instructions -/

theorem cut_range' (size start n : Nat) (whole : start + n = size) :
    cut size (List.range' start n) = (List.range' start n).map fun i => ⟨i, i⟩ := by
  induction n generalizing start with
  | zero => rfl
  | succ n ih =>
    cases n with
    | zero =>
      subst whole
      rfl
    | succ n =>
      have rest := ih (start + 1) (by omega)
      rw [List.range'_succ, List.range'_succ] at *
      rw [cut, rest]
      rfl

theorem unit_block (stmts : List Stmt) (flow : Digraph) :
    (compute .unit stmts flow).blocks[k]? = some block ↔ k < stmts.length ∧ block = ⟨k, k⟩ := by
  have all : leaders .unit stmts flow = List.range stmts.length := by
    simp [leaders_eq_filter, leads]
  change (cut stmts.length (leaders .unit stmts flow))[k]? = _ ↔ _
  rw [all, List.range_eq_range', cut_range' _ _ _ (Nat.zero_add _), ← List.range_eq_range',
    List.getElem?_map]
  by_cases bound : k < stmts.length
  · simp [bound, eq_comm]
  · simp [bound]

/-- One instruction to a block: what governs an instruction is in its frontier. -/
theorem unit_frontier_iff {stmts : List Stmt} (basic : IsBasic flow (compute .unit stmts flow))
    {frontiers : Frontiers} (found : Frontiers.compute (compute .unit stmts flow).graph = .ok frontiers)
    (bound : i < stmts.length) (inside : i < flow.size) (free : ¬flow.Stuck i) :
    x ∈ frontiers.frontier i ↔ flow.Governs x i := by
  have owner : (compute .unit stmts flow).owner i = i :=
    basic.owner_first ((unit_block stmts flow).mpr ⟨bound, rfl⟩)
  have known := basic.exists_frontier_iff (x := x) found inside free
  rw [owner] at known
  rw [← known]
  constructor
  · intro member
    have free' := mt (basic.stuck_iff inside).mpr free
    rw [owner] at free'
    obtain ⟨⟨s, edge, _⟩, _⟩ := ((basic.exact_of_compute found).mem_frontier x i free').mp member
    have small := Digraph.lt_of_mem_succs edge
    rw [basic.size] at small
    have there := List.getElem?_eq_getElem small
    obtain ⟨_, single⟩ := (unit_block stmts flow).mp there
    exact ⟨x, member, _, there, by rw [single]⟩
  · rintro ⟨k, member, block, there, rfl⟩
    obtain ⟨_, rfl⟩ := (unit_block stmts flow).mp there
    exact member

end Partition

/-- Control dependence does not depend on how instructions are grouped: frontiers are found for
single instructions if they are for blocks, an instruction has no way out if its block has none, and
its frontier is made of the last instructions of the blocks in the frontier of its block. -/
theorem frontier_of_unit_iff_expanded (b : Body) (inRange : b.InRange) :
    ∃ flow, b.flow? = .ok flow ∧
      let unit := Partition.compute .unit b.stmts flow
      let expanded := Partition.compute .expanded b.stmts flow
      (∀ i < b.size, unit.blocks[i]? = some ⟨i, i⟩) ∧
      ((∃ e, Frontiers.compute unit.graph = .error e) ↔
        ∃ e, Frontiers.compute expanded.graph = .error e) ∧
      (∀ i < b.size, unit.graph.Stuck i ↔ expanded.graph.Stuck (expanded.owner i)) ∧
      ∀ fine coarse, Frontiers.compute unit.graph = .ok fine →
        Frontiers.compute expanded.graph = .ok coarse → ∀ i < b.size,
          (i ∈ fine.stuck ↔ expanded.owner i ∈ coarse.stuck) ∧
          (i ∉ fine.stuck → ∀ x, x ∈ fine.frontier i ↔
            ∃ k ∈ coarse.frontier (expanded.owner i), ∃ block,
              expanded.blocks[k]? = some block ∧ block.last = x) := by
  obtain ⟨flow, ok⟩ : ∃ flow, b.flow? = .ok flow := ⟨_, Body.flow?_of_inRange inRange⟩
  have fineBasic := Body.isBasic ok .unit
  have coarseBasic := Body.isBasic ok .expanded
  have size := Body.flow_size ok
  have length := b.length_stmts
  have single (i : Nat) (bound : i < b.size) :
      (Partition.compute .unit b.stmts flow).blocks[i]? = some ⟨i, i⟩ :=
    (Partition.unit_block b.stmts flow).mpr ⟨by omega, rfl⟩
  refine ⟨flow, ok, single, ?_, fun i bound => ?_, fun fine coarse found found' i bound => ?_⟩
  · rw [fineBasic.compute_error_iff, coarseBasic.compute_error_iff]
  · have owner := fineBasic.owner_first (single i bound)
    have inside : i < flow.size := by omega
    rw [← coarseBasic.stuck_iff inside, fineBasic.stuck_iff inside, owner]
  · have owner := fineBasic.owner_first (single i bound)
    have inside : i < flow.size := by omega
    have stuck : i ∈ fine.stuck ↔ flow.Stuck i := by
      rw [← fineBasic.mem_stuck_iff found inside, owner]
    refine ⟨?_, fun free x => ?_⟩
    · rw [stuck, coarseBasic.mem_stuck_iff found' inside]
    · have free := mt stuck.mpr free
      rw [coarseBasic.exists_frontier_iff found' inside free]
      exact Partition.unit_frontier_iff fineBasic found (by omega) inside free

/-- A call in a block of its own, a block of two instructions that loops to itself, and a branch
between a return and a loop without a way out. -/
def loopThenStuck : Body where
  locals := [⟨"n", "int"⟩]
  code := [
    ⟨.call (.staticCall "p.C" "f" [] "void" []), .zero⟩,
    ⟨.assign (.localVar "n") (.binary "-" (.localVar "n") (.constant "int" "1")), .zero⟩,
    ⟨.branch (.localVar "n") 1, .zero⟩,
    ⟨.branch (.localVar "n") 5, .zero⟩,
    ⟨.goto 4, .zero⟩,
    ⟨.ret none, .zero⟩]

theorem loopThenStuck_frontiers : loopThenStuck.InRange ∧ ∃ flow fine coarse,
    loopThenStuck.flow? = .ok flow ∧
    Frontiers.compute (Partition.compute .unit loopThenStuck.stmts flow).graph = .ok fine ∧
    Frontiers.compute (Partition.compute .expanded loopThenStuck.stmts flow).graph = .ok coarse ∧
    (fine.stuck, fine.sets) = ([4], [[], [2], [2], [], [], []]) ∧
    (coarse.stuck, coarse.sets) = ([3], [[], [1], [], [], []]) ∧
    ∀ i < loopThenStuck.size,
      (i ∈ fine.stuck ↔ (Partition.compute .expanded loopThenStuck.stmts flow).owner i ∈ coarse.stuck) ∧
      (i ∉ fine.stuck → ∀ x, x ∈ fine.frontier i ↔
        ∃ k ∈ coarse.frontier ((Partition.compute .expanded loopThenStuck.stmts flow).owner i), ∃ block,
          (Partition.compute .expanded loopThenStuck.stmts flow).blocks[k]? = some block ∧
            block.last = x) := by
  have inRange : loopThenStuck.InRange := by decide
  have flow : loopThenStuck.flow? = .ok ⟨[[1], [2], [1, 3], [4, 5], [4], []]⟩ := by rfl
  obtain ⟨_, ok, _, _, _, agree⟩ := frontier_of_unit_iff_expanded loopThenStuck inRange
  obtain rfl := Except.ok.inj (flow.symm.trans ok)
  refine ⟨inRange, _, _, _, flow, rfl, rfl, ?_, ?_, agree _ _ rfl rfl⟩
  · decide
  · decide

end ProgramDependence
