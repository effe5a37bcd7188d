import ProgramDependence.Flow.Partition
import ProgramDependence.Proofs.Flow.Walk

/-! Blocks lie side by side and cover the body, and inside a block control only ever goes on to
the next instruction. -/
namespace ProgramDependence

namespace Partition

variable {size start i k : Nat} {blocks : List Block} {block : Block}

/-- The blocks follow one another without a gap from `start` to the end. -/
def Tiles (size : Nat) : Nat → List Block → Prop
  | start, [] => start = size
  | start, b :: rest => b.first = start ∧ start ≤ b.last ∧ Tiles size (b.last + 1) rest

theorem cut_tiles (leaders : List Nat) (ascending : (a :: leaders).Pairwise (· < ·))
    (bound : ∀ i ∈ a :: leaders, i < size) : Tiles size a (cut size (a :: leaders)) := by
  induction leaders generalizing a with
  | nil =>
    have small := bound a List.mem_cons_self
    refine ⟨rfl, ?_, ?_⟩
    · change a ≤ size - 1
      omega
    · change size - 1 + 1 = size
      omega
  | cons b leaders ih =>
    obtain ⟨below, rest⟩ := List.pairwise_cons.mp ascending
    have before : a < b := below b List.mem_cons_self
    have tail := ih rest fun i member => bound i (List.mem_cons_of_mem a member)
    have next : b - 1 + 1 = b := by omega
    refine ⟨rfl, ?_, ?_⟩
    · change a ≤ b - 1
      omega
    · change Tiles size (b - 1 + 1) _
      rw [next]
      exact tail

theorem holds_iff : block.holds i = true ↔ block.first ≤ i ∧ i ≤ block.last := by
  simp [Block.holds]

theorem mem_instructions : i ∈ block.instructions ↔ block.first ≤ i ∧ i ≤ block.last := by
  simp only [Block.instructions, List.mem_range'_1]
  omega

theorem Tiles.start_le (tiles : Tiles size start blocks) : start ≤ size := by
  induction blocks generalizing start with
  | nil => exact Nat.le_of_eq tiles
  | cons b rest ih =>
    obtain ⟨_, _, later⟩ := tiles
    have := ih later
    omega

theorem Tiles.length_le (tiles : Tiles size start blocks) : start + blocks.length ≤ size := by
  induction blocks generalizing start with
  | nil => exact Nat.le_of_eq tiles
  | cons b rest ih =>
    obtain ⟨_, long, later⟩ := tiles
    have bound := ih later
    rw [List.length_cons]
    omega

theorem Tiles.bounds (tiles : Tiles size start blocks) (there : blocks[k]? = some block) :
    start ≤ block.first ∧ block.first ≤ block.last ∧ block.last < size := by
  induction blocks generalizing start k with
  | nil => simp at there
  | cons b rest ih =>
    obtain ⟨first, long, later⟩ := tiles
    cases k with
    | zero =>
      obtain rfl : b = block := by simpa using there
      have := later.start_le
      omega
    | succ k =>
      have := ih later (by simpa using there)
      omega

/-- Every instruction is in the block that owns it. -/
theorem Tiles.owner_holds (tiles : Tiles size start blocks) (low : start ≤ i) (high : i < size) :
    ∃ block, blocks[ownerIn blocks i]? = some block ∧ block.holds i = true := by
  induction blocks generalizing start with
  | nil =>
    simp only [Tiles] at tiles
    omega
  | cons b rest ih =>
    obtain ⟨first, long, later⟩ := tiles
    by_cases here : b.holds i = true
    · exact ⟨b, by simp [ownerIn, List.findIdx_cons, here], here⟩
    · have after : b.last + 1 ≤ i := by
        rw [holds_iff] at here
        omega
      obtain ⟨block, there, held⟩ := ih later after
      refine ⟨block, ?_, held⟩
      simpa [ownerIn, List.findIdx_cons, here] using there

/-- A block owns every instruction that is in it. -/
theorem Tiles.owner_eq (tiles : Tiles size start blocks) (there : blocks[k]? = some block)
    (held : block.holds i = true) : ownerIn blocks i = k := by
  induction blocks generalizing start k with
  | nil => simp at there
  | cons b rest ih =>
    obtain ⟨first, long, later⟩ := tiles
    cases k with
    | zero =>
      obtain rfl : b = block := by simpa using there
      simp [ownerIn, List.findIdx_cons, held]
    | succ k =>
      have there : rest[k]? = some block := by simpa using there
      have past := (later.bounds there).1
      have notHere : b.holds i = false := by
        rw [holds_iff] at held
        simp only [Block.holds, Bool.and_eq_false_iff, decide_eq_false_iff_not]
        omega
      have deeper := ih later there
      simp only [ownerIn] at deeper
      simp [ownerIn, List.findIdx_cons, notHere, deeper]

theorem Tiles.owner_lt (tiles : Tiles size 0 blocks) (high : i < size) :
    ownerIn blocks i < blocks.length := by
  obtain ⟨block, there, _⟩ := tiles.owner_holds (Nat.zero_le i) high
  exact (List.getElem?_eq_some_iff.mp there).1

theorem Tiles.owner_start (tiles : Tiles size start blocks) (some : start < size) :
    ownerIn blocks start = 0 := by
  cases blocks with
  | nil => exact absurd tiles (Nat.ne_of_lt some)
  | cons b rest =>
    apply tiles.owner_eq (k := 0) rfl
    obtain ⟨first, long, _⟩ := tiles
    exact holds_iff.mpr ⟨Nat.le_of_eq first, long⟩

/-- No leader stands inside a block. -/
theorem cut_leader (leaders : List Nat) (ascending : leaders.Pairwise (· < ·))
    (bound : ∀ i ∈ leaders, i < size) (member : block ∈ cut size leaders) (leader : i ∈ leaders)
    (after : block.first < i) : block.last < i := by
  induction leaders with
  | nil => cases leader
  | cons a leaders ih =>
    obtain ⟨below, rest⟩ := List.pairwise_cons.mp ascending
    cases leaders with
    | nil =>
      obtain rfl : i = a := by simpa using leader
      obtain rfl : block = ⟨i, size - 1⟩ := by simpa [cut] using member
      exact absurd after (Nat.lt_irrefl i)
    | cons b leaders =>
      have before : a < b := below b List.mem_cons_self
      have bound' : ∀ i ∈ b :: leaders, i < size := fun i there =>
        bound i (List.mem_cons_of_mem a there)
      rw [cut] at member
      rcases List.mem_cons.mp member with rfl | later
      · change b - 1 < i
        change a < i at after
        rcases List.mem_cons.mp leader with rfl | further
        · omega
        · rcases List.mem_cons.mp further with rfl | beyond
          · omega
          · have := (List.pairwise_cons.mp rest).1 i beyond
            omega
      · rcases List.mem_cons.mp leader with rfl | further
        · obtain ⟨k, there⟩ := List.mem_iff_getElem?.mp later
          have first := ((cut_tiles leaders rest bound').bounds there).1
          omega
        · exact ih rest bound' later further

/-! ### Blocks of a body -/

section Body

variable {policy : Policy} {stmts : List Stmt} {flow : Digraph}

/-- Whether a longest block starts at an instruction. -/
def breaks (stmts : List Stmt) (flow : Digraph) (i : Nat) : Bool :=
  stmts.any (fun s => s.targets.contains i) ||
  (flow.preds i).length > 1 ||
  (stmts[i]?.any isCall) ||
  (0 < i && stmts[i - 1]?.any fun s => s.endsBlock || isCall s)

def leads (policy : Policy) (stmts : List Stmt) (flow : Digraph) (i : Nat) : Bool :=
  i = 0 || policy = .unit || breaks stmts flow i

/-- A leader is the first instruction, or a statement asked for it. -/
theorem mem_collected (items : List (Stmt × Nat)) (set : List Nat) :
    i ∈ items.foldl (fun set (s, k) => (leadersFrom policy flow s k).foldr Ascending.insert set) set ↔
      i ∈ set ∨ ∃ s k, (s, k) ∈ items ∧ i ∈ leadersFrom policy flow s k := by
  induction items generalizing set with
  | nil => simp
  | cons item items ih =>
    rw [List.foldl_cons, ih, Ascending.mem_foldr_insert]
    grind

theorem collected_ascending (items : List (Stmt × Nat)) {set : List Nat} (ordered : set.Pairwise (· < ·)) :
    (items.foldl (fun set (s, k) => (leadersFrom policy flow s k).foldr Ascending.insert set) set).Pairwise
      (· < ·) := by
  induction items generalizing set with
  | nil => exact ordered
  | cons item items ih => exact ih (Ascending.foldr_insert_ascending _ set ordered)

theorem leaders_ascending (policy : Policy) (stmts : List Stmt) (flow : Digraph) :
    (leaders policy stmts flow).Pairwise (· < ·) := by
  refine (collected_ascending _ ?_).filter _
  split
  · exact .nil
  · exact List.pairwise_singleton _ _

theorem asked_iff_breaks (stmts : List Stmt) (flow : Digraph) (bound : i < stmts.length) :
    (∃ s k, (s, k) ∈ stmts.zipIdx ∧ i ∈ leadersFrom .expanded flow s k) ↔ breaks stmts flow i = true := by
  simp only [List.mk_mem_zipIdx_iff_getElem?, leadersFrom, List.mem_append, breaks, Bool.or_eq_true,
    List.any_eq_true, List.contains_iff_mem, decide_eq_true_eq, Option.any_eq_true, Bool.and_eq_true]
  constructor
  · rintro ⟨s, k, there, ((target | ends) | meets) | call⟩
    · exact .inl (.inl (.inl ⟨s, List.mem_of_getElem? there, target⟩))
    · split at ends
      next final =>
        obtain rfl := List.mem_singleton.mp ends
        exact .inr ⟨Nat.succ_pos k, s, there, .inl final⟩
      next => cases ends
    · split at meets
      next several =>
        obtain rfl := List.mem_singleton.mp meets
        exact .inl (.inl (.inr several))
      next => cases meets
    · split at call
      next calls =>
        rcases List.mem_pair.mp call with rfl | rfl
        · exact .inl (.inr ⟨s, there, calls⟩)
        · exact .inr ⟨Nat.succ_pos k, s, there, .inr calls⟩
      next => cases call
  · rintro (((⟨s, member, target⟩ | several) | ⟨s, there, calls⟩) | ⟨inner, s, there, ends | calls⟩)
    · obtain ⟨k, there⟩ := List.mem_iff_getElem?.mp member
      exact ⟨s, k, there, .inl (.inl (.inl target))⟩
    · exact ⟨_, i, List.getElem?_eq_getElem bound, .inl (.inr (by simp [several]))⟩
    · exact ⟨s, i, there, .inr (by simp [calls])⟩
    · exact ⟨s, i - 1, there, .inl (.inl (.inr (by simp [ends]; omega)))⟩
    · exact ⟨s, i - 1, there, .inr (by simp [calls]; omega)⟩

theorem mem_leaders : i ∈ leaders policy stmts flow ↔
    i < stmts.length ∧ leads policy stmts flow i = true := by
  rw [leaders, List.mem_filter, decide_eq_true_eq, and_comm, mem_collected]
  refine and_congr_right fun bound => ?_
  have first : (i ∈ if stmts.isEmpty then [] else [0]) ↔ i = 0 := by
    rw [if_neg fun none => by simp [List.isEmpty_iff.mp none] at bound, List.mem_singleton]
  simp only [first, leads, Bool.or_eq_true, decide_eq_true_eq]
  cases policy with
  | unit =>
    have asked : ∃ s k, (s, k) ∈ stmts.zipIdx ∧ i ∈ leadersFrom .unit flow s k :=
      ⟨_, i, List.mk_mem_zipIdx_iff_getElem?.mpr (List.getElem?_eq_getElem bound), List.mem_singleton_self i⟩
    simp [asked]
  | expanded =>
    rw [asked_iff_breaks stmts flow bound]
    simp

/-- Collecting leaders and dropping those past the end leaves the instructions that lead. -/
theorem leaders_eq_filter (policy : Policy) (stmts : List Stmt) (flow : Digraph) :
    leaders policy stmts flow = (List.range stmts.length).filter (leads policy stmts flow) := by
  apply (leaders_ascending policy stmts flow).eq_of_mem_iff (List.pairwise_lt_range.filter _)
  intro i
  rw [mem_leaders, List.mem_filter, List.mem_range]

theorem leaders_lt (member : i ∈ leaders policy stmts flow) : i < stmts.length :=
  (mem_leaders.mp member).1

theorem compute_tiles (policy : Policy) (stmts : List Stmt) (flow : Digraph) :
    Tiles stmts.length 0 (compute policy stmts flow).blocks := by
  change Tiles stmts.length 0 (cut stmts.length (leaders policy stmts flow))
  cases stmts with
  | nil => rfl
  | cons s stmts =>
    have first : ∃ rest, leaders policy (s :: stmts) flow = 0 :: rest := by
      rw [leaders_eq_filter, List.length_cons, List.range_succ_eq_map]
      rw [List.filter_cons_of_pos (by simp [leads])]
      exact ⟨_, rfl⟩
    obtain ⟨rest, first⟩ := first
    have ascending := leaders_ascending policy (s :: stmts) flow
    have bound : ∀ i ∈ leaders policy (s :: stmts) flow, i < (s :: stmts).length :=
      fun i member => leaders_lt member
    rw [first] at ascending bound ⊢
    exact cut_tiles rest ascending bound

theorem block_bounds (there : block ∈ (compute policy stmts flow).blocks) :
    block.first ≤ block.last ∧ block.last < stmts.length := by
  obtain ⟨k, atIndex⟩ := List.mem_iff_getElem?.mp there
  exact ((compute_tiles policy stmts flow).bounds atIndex).2

theorem graph_size (policy : Policy) (stmts : List Stmt) (flow : Digraph) :
    (compute policy stmts flow).graph.size = (compute policy stmts flow).blocks.length := by
  simp [compute, Digraph.size]

theorem graph_closed (closed : flow.Closed) (sized : flow.size = stmts.length) :
    (compute policy stmts flow).graph.Closed := by
  intro i j edge
  rw [graph_size]
  simp only [compute, Digraph.succs, List.getD_eq_getElem?_getD, List.getElem?_map] at edge
  cases there : (cut stmts.length (leaders policy stmts flow))[i]? with
  | none => simp [there] at edge
  | some block =>
    simp only [there, Option.map_some, Option.getD_some, Ascending.mem_ofList, List.mem_map] at edge
    obtain ⟨s, link, rfl⟩ := edge
    refine (compute_tiles policy stmts flow).owner_lt ?_
    rw [← sized]
    exact closed _ _ link

theorem falls_of_not_endsBlock {s : Stmt} (inner : s.endsBlock = false) :
    s.fallsThrough = true ∧ s.targets = [] := by
  cases s <;> simp_all [Stmt.endsBlock, Stmt.fallsThrough, Stmt.targets]

/-- An instruction inside a block is no leader, so the one before it does not end a block. -/
theorem not_endsBlock_of_inside (there : block ∈ (compute policy stmts flow).blocks)
    (low : block.first ≤ i) (high : i < block.last) :
    ∃ s, stmts[i]? = some s ∧ s.endsBlock = false := by
  have bound := (block_bounds there).2
  have small : i < stmts.length := by omega
  refine ⟨stmts[i], List.getElem?_eq_getElem small, ?_⟩
  by_contra ends
  have leader : i + 1 ∈ leaders policy stmts flow := by
    refine mem_leaders.mpr ⟨by omega, ?_⟩
    simp [leads, breaks, List.getElem?_eq_getElem small, eq_true_of_ne_false ends]
  have := cut_leader _ (leaders_ascending policy stmts flow) (fun i => leaders_lt) there leader
    (by omega)
  omega

end Body

end Partition

namespace Body

variable {b : Body} {flow : Digraph} {policy : Policy} {block : Block} {i j : Nat}

/-- Inside a block control goes on to the next instruction and nowhere else. -/
theorem succ_inside (ok : b.flow? = .ok flow)
    (there : block ∈ (Partition.compute policy b.stmts flow).blocks) (low : block.first ≤ i)
    (high : i < block.last) (edge : j ∈ flow.succs i) : j = i + 1 := by
  obtain ⟨s, atIndex, inner⟩ := Partition.not_endsBlock_of_inside there low high
  obtain ⟨_, noTargets⟩ := Partition.falls_of_not_endsBlock inner
  obtain ⟨s', atIndex', way⟩ := (mem_flow_succs ok).mp edge
  obtain rfl : s = s' := Option.some.inj (atIndex.symm.trans atIndex')
  rcases way with ⟨_, _, next⟩ | branch
  · exact next
  · simp [noTargets] at branch

/-- A walk that starts inside a block stays in it or goes through its last instruction. -/
theorem walk_leaves (ok : b.flow? = .ok flow)
    (there : block ∈ (Partition.compute policy b.stmts flow).blocks) (walk : flow.Walk i between j)
    (low : block.first ≤ i) (high : i ≤ block.last) :
    (i < j ∧ j ≤ block.last) ∨ block.last ∈ i :: between := by
  induction walk with
  | @edge i j edge =>
    by_cases tail : i = block.last
    · exact .inr (by simp [tail])
    · have next := succ_inside ok there low (by omega) edge
      exact .inl (by omega)
  | @cons i m j between edge rest ih =>
    by_cases tail : i = block.last
    · exact .inr (by simp [tail])
    · have next := succ_inside ok there low (by omega) edge
      rcases ih (by omega) (by omega) with inside | leaves
      · exact .inl (by omega)
      · exact .inr (List.mem_cons_of_mem i leaves)

end Body
end ProgramDependence
