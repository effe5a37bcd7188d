import ProgramDependence.Proofs.Flow.Partition
import ProgramDependence.Proofs.Locals.Dataflow
import ProgramDependence.Proofs.Locals.Table
import ProgramDependence.Proofs.Method.Builder

/-! What an analysis of a body holds, and which links of a method are which: the tag separates control
flow and control dependences from data dependences, and constants have nodes of their own beside
expression trees. -/
namespace ProgramDependence

/-! ### Analyses -/

namespace Body

variable {b : Body} {policy : Policy} {a : Analysis}

theorem analyze_of_inRange (policy : Policy) (inRange : b.InRange) :
    ∃ a, b.analyze policy = .ok a := by
  simp only [analyze, flow?_of_inRange inRange]
  exact ⟨_, rfl⟩

/-- The parts of an analysis, each from the body. -/
structure Analyzed (policy : Policy) (b : Body) (a : Analysis) : Prop where
  body : a.body = b
  flow : b.flow? = .ok a.flow
  partition : a.partition = .compute policy b.stmts a.flow
  locals : a.locals = .collect b
  access : a.access = .compute b (.collect b)
  liveness : a.liveness = .compute a.flow a.access

theorem analyzed (ok : b.analyze policy = .ok a) : Analyzed policy b a := by
  unfold analyze at ok
  cases flow : b.flow? with
  | error e =>
    rw [flow] at ok
    cases ok
  | ok flow' =>
    rw [flow] at ok
    cases ok
    exact ⟨rfl, flow, rfl, rfl, rfl, rfl⟩

namespace Analyzed

variable {block : Block} {i k : Nat}

theorem closed (known : Analyzed policy b a) : a.flow.Closed := flow_closed known.flow

theorem tiles (known : Analyzed policy b a) : Partition.Tiles b.size 0 a.blocks := by
  have tiles := Partition.compute_tiles policy b.stmts a.flow
  rw [length_stmts, ← known.partition] at tiles
  exact tiles

theorem owner_eq (known : Analyzed policy b a) (there : a.blocks[k]? = some block)
    (inside : i ∈ block.instructions) : a.partition.owner i = k :=
  known.tiles.owner_eq there (Partition.holds_iff.mpr (Partition.mem_instructions.mp inside))

theorem owner_block (known : Analyzed policy b a) (bound : i < b.size) :
    ∃ block, a.blocks[a.partition.owner i]? = some block ∧ i ∈ block.instructions := by
  obtain ⟨block, there, held⟩ := known.tiles.owner_holds (Nat.zero_le i) bound
  exact ⟨block, there, Partition.mem_instructions.mpr (Partition.holds_iff.mp held)⟩

theorem graph_size (known : Analyzed policy b a) : a.partition.graph.size = a.blocks.length := by
  rw [Analysis.blocks, known.partition]
  exact Partition.graph_size policy b.stmts a.flow

theorem graph_closed (known : Analyzed policy b a) : a.partition.graph.Closed := by
  rw [known.partition]
  refine Partition.graph_closed known.closed ?_
  rw [flow_size known.flow, length_stmts]

theorem blocks_nonempty (known : Analyzed policy b a) : 0 < a.blocks.length ↔ 0 < b.size := by
  have tiles := known.tiles
  cases blocks : a.blocks with
  | nil =>
    rw [blocks] at tiles
    have empty : 0 = b.size := tiles
    simp [← empty]
  | cons block rest =>
    rw [blocks] at tiles
    have bounds := tiles.bounds (k := 0) rfl
    simp only [List.length_cons]
    omega

end Analyzed
end Body

/-! ### Tags -/

theorem colon_mem_dataTag (ty : String) (k : Nat) : ':' ∈ (dataTag ty k).toList := by
  have colon : ':' ∈ (toString ":").toList := by decide
  simp [dataTag, colon]

theorem dataTag_ne (ty : String) (k : Nat) : dataTag ty k ≠ flowTag ∧ dataTag ty k ≠ controlTag := by
  have differs {tag : String} (plain : ':' ∉ tag.toList) : dataTag ty k ≠ tag := by
    rintro rfl
    exact plain (colon_mem_dataTag ty k)
  exact ⟨differs (by decide), differs (by decide)⟩

namespace Frame

variable {f : Frame} {l : Link} {block : Block} {index : Nat}

theorem flowLinks_tag (member : l ∈ f.flowLinks) : l.tag = flowTag := by
  obtain ⟨arc, listed, rfl⟩ := List.mem_map.mp member
  simp only [flowArcs, List.mem_append, List.mem_map, List.mem_flatMap] at listed
  rcases listed with ⟨_, _, rfl⟩ | ⟨_, _, _, _, rfl⟩ <;> rfl

theorem drawnControls_tag (member : l ∈ f.drawnControls) : l.tag = controlTag := by
  unfold drawnControls at member
  split at member
  · cases member
  · obtain ⟨arc, listed, rfl⟩ := List.mem_map.mp member
    simp only [controlArcs, List.mem_append, List.mem_map, List.mem_flatMap] at listed
    rcases listed with ⟨_, _, _, _, rfl⟩ | ⟨_, _, rfl⟩ <;> rfl

theorem mem_data_iff : l ∈ f.data ↔ ∃ arc, .ok arc ∈ f.found ∧ f.linkOf arc = l := by
  simp only [data, arcsOf, List.mem_map, List.mem_filterMap]
  refine exists_congr fun arc => and_congr_left fun _ => ?_
  constructor
  · rintro ⟨x, member, same⟩
    cases x with
    | error e => cases same
    | ok arc' =>
      obtain rfl := Option.some.inj same
      exact member
  · intro member
    exact ⟨_, member, rfl⟩

theorem data_tag (member : l ∈ f.data) : ∃ ty k, l.tag = dataTag ty k := by
  obtain ⟨arc, listed, rfl⟩ := mem_data_iff.mp member
  simp only [found, dataArcs, List.mem_flatMap, List.mem_filterMap] at listed
  obtain ⟨_, _, _, _, _, _, _, _, reads⟩ := listed
  simp only [dataArc] at reads
  split at reads
  · cases reads
  · split at reads
    · cases reads
    · obtain rfl := Except.ok.inj (Option.some.inj reads)
      exact ⟨_, _, rfl⟩

/-! ### Constants -/

theorem mem_constantsOf {i : Instruction} {constant : Identity × String} :
    constant ∈ f.constantsOf i ↔ ∃ k ty text, i.stmt.operands[k]? = some (.constant ty text) ∧
      constant = (f.constantNode i ty text, dataTag ty k) := by
  simp only [constantsOf, List.mem_filterMap, Prod.exists, List.mk_mem_zipIdx_iff_getElem?]
  constructor
  · rintro ⟨operand, k, there, found⟩
    cases operand with
    | localVar name => cases found
    | constant ty text => exact ⟨k, ty, text, there, (Option.some.inj found).symm⟩
  · rintro ⟨k, ty, text, there, rfl⟩
    exact ⟨_, k, there, rfl⟩

/-- A constant among the operands of an instruction that has a node of its own. -/
def Hoists (f : Frame) (i k : Nat) (instruction : Instruction) (ty text : String) : Prop :=
  f.labelling = .trees ∧ f.analysis.body.code[i]? = some instruction ∧
    instruction.stmt.operands[k]? = some (.constant ty text)

theorem mem_constantsIn {constant : Identity × String} : constant ∈ f.constantsIn block ↔
    ∃ i k instruction ty text, i ∈ block.instructions ∧ f.Hoists i k instruction ty text ∧
      constant = (f.constantNode instruction ty text, dataTag ty k) := by
  unfold constantsIn
  split
  next trees =>
    simp only [Analysis.codeOf, List.mem_flatMap, List.mem_filterMap, mem_constantsOf]
    constructor
    · rintro ⟨instruction, ⟨i, inside, there⟩, k, ty, text, operand, rfl⟩
      exact ⟨i, k, instruction, ty, text, inside, ⟨trees, there, operand⟩, rfl⟩
    · rintro ⟨i, k, instruction, ty, text, inside, ⟨_, there, operand⟩, rfl⟩
      exact ⟨instruction, ⟨i, inside, there⟩, k, ty, text, operand, rfl⟩
  all_goals
    next other =>
      simp [Hoists, other]

/-- Every hoisted constant depends on the entry and feeds the block of its instruction. -/
theorem mem_allConstantLinks {policy : Policy} {b : Body} {a : Analysis} {labelling : Labelling}
    {c : Class} {m : Method} (known : Body.Analyzed policy b a) :
    l ∈ (ofAnalysis labelling c m a).allConstantLinks ↔
      ∃ i k instruction ty text, (ofAnalysis labelling c m a).Hoists i k instruction ty text ∧
        (l = ⟨.entry c m, (ofAnalysis labelling c m a).constantNode instruction ty text, controlTag⟩ ∨
          l = ⟨(ofAnalysis labelling c m a).constantNode instruction ty text,
            (ofAnalysis labelling c m a).node (a.partition.owner i), dataTag ty k⟩) := by
  simp only [allConstantLinks, List.mem_flatMap, Prod.exists, constantLinks, List.mem_cons,
    List.not_mem_nil, or_false]
  constructor
  · rintro ⟨block, listed, constant, tag, member, links⟩
    obtain ⟨i, k, instruction, ty, text, inside, hoisted, same⟩ := mem_constantsIn.mp member
    obtain ⟨rfl, rfl⟩ := Prod.mk.inj same
    obtain ⟨index, there⟩ := List.mem_iff_getElem?.mp listed
    rw [← node_of_block there] at links
    obtain rfl := known.owner_eq there inside
    exact ⟨i, k, instruction, ty, text, hoisted, links⟩
  · rintro ⟨i, k, instruction, ty, text, hoisted, links⟩
    have bound : i < b.size := by
      have there := hoisted.2.1
      change a.body.code[i]? = some instruction at there
      rw [known.body] at there
      exact (List.getElem?_eq_some_iff.mp there).1
    obtain ⟨block, there, inside⟩ := known.owner_block bound
    rw [node_of_block there] at links
    exact ⟨block, List.mem_of_getElem? there, _, _,
      mem_constantsIn.mpr ⟨i, k, instruction, ty, text, inside, hoisted, rfl⟩, links⟩

end Frame
end ProgramDependence
