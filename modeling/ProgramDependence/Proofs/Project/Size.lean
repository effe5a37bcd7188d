import ProgramDependence.Proofs.Code.Size
import ProgramDependence.Proofs.Method.Ends
import ProgramDependence.Proofs.Project.Order

/-! How many nodes a run can have. A method has an entry, a node for each block and nodes for some of its
operands, so there are no more nodes than values in the documents. -/
namespace ProgramDependence

namespace Frame

variable {labelling : Labelling} {policy : Policy} {c : Class} {m : Method} {b : Body} {a : Analysis}
  {f : Frame} {l : Link} {i : Identity} {k : Nat}

/-- What the nodes of a method are made from. -/
def supply (f : Frame) (b : Body) : List Identity :=
  f.entry :: f.nodes ++ b.code.flatMap fun instruction => (f.constantsOf instruction).map (·.1)

theorem blockNode_mem_supply (f : Frame) (b : Body) {block : Block} (listed : block ∈ f.blocks) :
    f.blockNode block ∈ f.supply b :=
  List.mem_append_left _ (List.mem_cons_of_mem _ (List.mem_map.mpr ⟨block, listed, rfl⟩))

theorem entry_mem_supply (f : Frame) (b : Body) : f.entry ∈ f.supply b := List.mem_cons_self

theorem constant_mem_supply {ty text : String} {instruction : Instruction} {j : Nat}
    (there : b.code[j]? = some instruction)
    (operand : instruction.stmt.operands[k]? = some (.constant ty text)) :
    f.constantNode instruction ty text ∈ f.supply b := by
  apply List.mem_append_right
  apply List.mem_flatMap.mpr
  refine ⟨instruction, List.mem_of_getElem? there, ?_⟩
  exact List.mem_map.mpr ⟨_, mem_constantsOf.mpr ⟨k, ty, text, operand, rfl⟩, rfl⟩

theorem allNodes_mem_supply (known : Body.Analyzed policy b a)
    (member : i ∈ (ofAnalysis labelling c m a).allNodes) : i ∈ (ofAnalysis labelling c m a).supply b := by
  simp only [allNodes, nodesOf, List.mem_cons, List.mem_flatMap, List.mem_map, Prod.exists] at member
  rcases member with rfl | ⟨block, listed, rfl | ⟨constant, tag, inBlock, rfl⟩⟩
  · exact entry_mem_supply _ b
  · exact blockNode_mem_supply _ b listed
  · obtain ⟨j, k, instruction, ty, text, _, ⟨_, there, operand⟩, same⟩ := mem_constantsIn.mp inBlock
    obtain ⟨rfl, rfl⟩ := Prod.mk.inj same
    exact constant_mem_supply (known.body ▸ there) operand

theorem constantsOf_length (f : Frame) (instruction : Instruction) :
    (f.constantsOf instruction).length ≤ instruction.stmt.operands.length := by
  refine (List.length_filterMap_le _ _).trans ?_
  rw [List.length_zipIdx]

theorem supply_length (known : Body.Analyzed policy b a) :
    ((ofAnalysis labelling c m a).supply b).length ≤ b.extent + 1 := by
  have blocks : a.blocks.length ≤ b.code.length := by
    have bound := known.tiles.length_le
    rw [Nat.zero_add] at bound
    exact bound
  have nodes : (ofAnalysis labelling c m a).nodes.length = a.blocks.length := List.length_map _
  have constants : (b.code.flatMap fun instruction =>
      ((ofAnalysis labelling c m a).constantsOf instruction).map (·.1)).length ≤
        (b.code.map fun instruction => instruction.stmt.operands.length).sum := by
    rw [List.length_flatMap]
    apply List.sum_le_sum
    intro instruction _
    rw [List.length_map]
    exact constantsOf_length _ instruction
  have extent : b.extent =
      (b.code.map fun instruction => instruction.stmt.operands.length).sum + b.code.length := by
    rw [Body.extent]
    exact List.sum_map_add.trans (by simp)
  simp only [supply, List.cons_append, List.length_cons, List.length_append]
  omega

end Frame

namespace Project

variable {o : BuildOptions} {t : Task}

/-- A method is made of no more nodes than values were given for it. -/
theorem exists_supply (o : BuildOptions) (t : Task) : ∃ supply : List Identity,
    supply.length ≤ t.2.weight ∧ .entry t.1 t.2 ∈ supply ∧
      ∀ i ∈ (contribution o t).mentions, i ∈ supply := by
  obtain ⟨c, m⟩ := t
  have entryOnly {mentions : List Identity} (only : ∀ i ∈ mentions, i = .entry c m) :
      ∃ supply : List Identity, supply.length ≤ m.weight ∧ .entry c m ∈ supply ∧
        ∀ i ∈ mentions, i ∈ supply :=
    ⟨[.entry c m], Nat.le_add_left _ _, List.mem_singleton.mpr rfl,
      fun i member => List.mem_singleton.mpr (only i member)⟩
  simp only [contribution]
  cases given : m.body with
  | none => exact entryOnly fun _ none => absurd none List.not_mem_nil
  | some raw =>
    simp only
    cases decoded : Body.ofJson? raw with
    | none => exact entryOnly fun _ none => absurd none List.not_mem_nil
    | some body =>
      simp only [contributionOf]
      cases analyzed : body.analyze o.policy with
      | error e => exact entryOnly fun _ => List.mem_singleton.mp
      | ok a =>
        have known := Body.analyzed analyzed
        refine ⟨(Frame.ofAnalysis o.labelling c m a).supply body, ?_, Frame.entry_mem_supply _ body, ?_⟩
        · calc
            _ ≤ body.extent + 1 := Frame.supply_length known
            _ ≤ raw.weight + 1 := Nat.succ_le_succ (Body.extent_le decoded)
            _ = m.weight := by rw [Method.weight, given, Option.elim_some]
        · exact fun i => Frame.allNodes_mem_supply known

theorem exists_supplies (o : BuildOptions) (tasks : List Task) : ∃ supply : List Identity,
    supply.length ≤ (tasks.map fun t => t.2.weight).sum ∧
      ∀ t ∈ tasks, .entry t.1 t.2 ∈ supply ∧ ∀ i ∈ (contribution o t).mentions, i ∈ supply := by
  induction tasks with
  | nil => exact ⟨[], Nat.le_refl _, fun _ none => absurd none List.not_mem_nil⟩
  | cons t tasks ih =>
    obtain ⟨first, length, entry, mentions⟩ := exists_supply o t
    obtain ⟨rest, lengths, others⟩ := ih
    refine ⟨first ++ rest, ?_, fun t' member => ?_⟩
    · simp only [List.length_append, List.map_cons, List.sum_cons]
      omega
    · rcases List.mem_cons.mp member with rfl | later
      · exact ⟨List.mem_append_left _ entry, fun i mention => List.mem_append_left _ (mentions i mention)⟩
      · obtain ⟨entry', mentions'⟩ := others t' later
        exact ⟨List.mem_append_right _ entry',
          fun i mention => List.mem_append_right _ (mentions' i mention)⟩

theorem tasksOf_weight (o : BuildOptions) (classes : List Class) :
    ((tasksOf o classes).map fun t => t.2.weight).sum ≤ (classes.map Class.weight).sum := by
  induction classes with
  | nil => exact Nat.le_refl _
  | cons c classes ih =>
    rw [tasksOf_cons, List.map_append, List.sum_append, List.map_cons, List.sum_cons]
    apply Nat.add_le_add _ ih
    split
    · rw [List.map_map]
      exact Nat.le_refl _
    · exact Nat.zero_le _

/-- No run has more nodes than values were given for its methods. -/
theorem build_nodeCount_le (o : BuildOptions) (classes : List Class) :
    ((tasksOf o classes).foldl (advance o) (opening o classes)).graph.nodeCount ≤
      (classes.map Class.weight).sum := by
  obtain ⟨supply, length, all⟩ := exists_supplies o (tasksOf o classes)
  have drawn := build_extends o classes
  have inside : ((tasksOf o classes).foldl (advance o) (opening o classes)).graph.identities ⊆ supply := by
    intro i listed
    rw [drawn.identities, mem_enlistAll, List.mem_append] at listed
    rcases listed with before | entry | added
    · cases before
    · obtain ⟨t, member, rfl⟩ := List.mem_map.mp entry
      exact (all t member).1
    · obtain ⟨t, member, mention⟩ := List.mem_flatMap.mp added
      exact (all t member).2 i mention
  calc
    _ = _ := (Graph.length_identities _).symm
    _ ≤ supply.length := (List.subperm_of_subset drawn.plain.distinct inside).length_le
    _ ≤ _ := length
    _ ≤ _ := tasksOf_weight o classes

end Project
end ProgramDependence
