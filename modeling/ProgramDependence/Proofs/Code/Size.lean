import ProgramDependence.Code.Class
import ProgramDependence.Proofs.Code.RoundTrip
import ProgramDependence.Proofs.Json.Size
import ProgramDependence.Proofs.Text.Bytes

/-! Code is no larger than the text that it was decoded from. Every operand, every instruction and every
method comes from a value of its own. -/
namespace ProgramDependence

open Json (Fields orDefault weight)
open Json.Fields (slotSize slotsSize)

namespace Json

variable {j : Json} {fields : Fields Json} {names : List String} {slots : List (Option Json)}

theorem weight_of_fields (found : j.fields? = some fields) : j.weight = fields.total weight + 1 := by
  cases j with
  | arr items =>
    cases found
    rw [weight, weightItems_eq]
    rfl
  | obj entries =>
    cases found
    rw [weight, weightEntries_eq]
    rfl
  | _ => cases found

/-- Together the slots of a record are smaller than the record. -/
theorem slotsSize_lt (distinct : names.Nodup) (found : j.fields? = some fields)
    (filled : fields.slots names = some slots) : slotsSize weight slots < j.weight := by
  rw [weight_of_fields found]
  exact Nat.lt_succ_of_le (Fields.slotsSize_le distinct filled)

/-- The items of a list, each no larger than what it came from. -/
theorem list?_sum_lt {item? : Json → Option α} {size : α → Nat} {xs : List α}
    (fits : ∀ j x, item? j = some x → size x ≤ j.weight) (decoded : j.list? item? = some xs) :
    (xs.map size).sum < j.weight := by
  cases j with
  | arr items =>
    simp only [list?] at decoded
    rw [weight, weightItems_eq]
    apply Nat.lt_succ_of_le
    induction items generalizing xs with
    | nil =>
      cases decoded
      exact Nat.le_refl _
    | cons item items ih =>
      simp only [List.mapM_cons, Option.bind_eq_bind, Option.bind_eq_some_iff, Option.pure_def,
        Option.some.injEq] at decoded
      obtain ⟨x, first, rest, others, rfl⟩ := decoded
      simp only [List.map_cons, List.sum_cons]
      exact Nat.add_le_add (fits item x first) (ih others)
  | _ => cases decoded

end Json

/-! ### Operands -/

namespace Expr

namespace Spelled

def weight (s : Spelled) : Nat := s.json.weight

/-- What is spelled has no more operands than values that spell it. -/
structure Fits (s : Spelled) : Prop where
  expr : ∀ e, s.expr = some e → e.operands.length ≤ s.weight
  exprs : ∀ es, s.exprs = some es → (operandsOf es).length ≤ s.weight

variable {slot : Option Spelled}

theorem expr_slot (fits : ∀ s ∈ slot, s.Fits) (found : ∃ s, slot = some s ∧ s.expr = some e) :
    e.operands.length ≤ slotSize weight slot := by
  obtain ⟨s, rfl, spelled⟩ := found
  exact (fits s rfl).expr e spelled

theorem exprs_slot (fits : ∀ s ∈ slot, s.Fits) (found : ∃ s, slot = some s ∧ s.exprs = some es) :
    (operandsOf es).length ≤ slotSize weight slot := by
  obtain ⟨s, rfl, spelled⟩ := found
  exact (fits s rfl).exprs es spelled

theorem args_slot (fits : ∀ s ∈ slot, s.Fits) (found : orDefault [] (·.exprs) slot = some es) :
    (operandsOf es).length ≤ slotSize weight slot := by
  cases slot with
  | none =>
    cases found
    exact Nat.zero_le _
  | some s => exact (fits s rfl).exprs es found

theorem receiver_slot (fits : ∀ s ∈ slot, s.Fits) (found : receiver? slot = some (some e)) :
    e.operands.length ≤ slotSize weight slot := by
  cases slot with
  | none => cases found
  | some s =>
    simp only [receiver?] at found
    split at found
    · cases found
    · obtain ⟨e', spelled, same⟩ := Option.map_eq_some_iff.mp found
      cases same
      exact (fits s rfl).expr e spelled

end Spelled

/-- A kind makes its operands from those of its fields, or is one operand itself. -/
theorem operands_of_slots {kind : Kind} {slots : List (Option Spelled)}
    (fits : ∀ slot ∈ slots, ∀ s ∈ slot, s.Fits) (made : ofSlots? kind slots = some e) :
    e.operands.length ≤ slotsSize Spelled.weight slots + 1 := by
  unfold ofSlots? at made
  split at made
  case h_17 => cases made
  all_goals
    simp only [List.forall_mem_cons] at fits
    simp only [Option.bind_eq_bind, Option.bind_eq_some_iff, Option.some.injEq] at made
    simp only [slotsSize, List.map_cons, List.sum_cons]
  -- without an operand in their fields
  case h_1 | h_4 | h_5 | h_13 =>
    obtain ⟨_, _, rfl⟩ := made
    simp [operands]
  case h_2 | h_3 =>
    obtain ⟨_, _, _, _, rfl⟩ := made
    simp [operands]
  -- a field, of an object or of a class
  case h_6 =>
    obtain ⟨_, _, _, _, _, _, base, found, made⟩ := made
    cases base with
    | none =>
      cases made
      exact Nat.zero_le _
    | some base =>
      cases made
      have receiver := Spelled.receiver_slot fits.2.2.2.1 found
      simp only [operands]
      omega
  -- with two operands
  case h_7 =>
    obtain ⟨_, base, _, index, _, _, rfl⟩ := made
    have first := Spelled.expr_slot fits.1 base
    have second := Spelled.expr_slot fits.2.1 index
    simp only [operands, List.length_append]
    omega
  case h_8 =>
    obtain ⟨_, _, _, lhs, _, rhs, rfl⟩ := made
    have first := Spelled.expr_slot fits.2.1 lhs
    have second := Spelled.expr_slot fits.2.2.1 rhs
    simp only [operands, List.length_append]
    omega
  -- with one operand, alone or after a type
  case h_9 | h_10 =>
    obtain ⟨_, operand, rfl⟩ := made
    have only := Spelled.expr_slot fits.1 operand
    simp only [operands]
    omega
  case h_11 | h_12 | h_14 =>
    obtain ⟨_, _, _, operand, rfl⟩ := made
    have only := Spelled.expr_slot fits.2.1 operand
    simp only [operands]
    omega
  -- with any number of operands
  case h_15 =>
    obtain ⟨_, _, _, sizes, rfl⟩ := made
    have all := Spelled.exprs_slot fits.2.1 sizes
    simp only [operands]
    omega
  case h_16 =>
    obtain ⟨_, _, _, _, _, _, _, _, _, args, base, found, made⟩ := made
    have all := Spelled.args_slot fits.2.2.2.2.2.1 args
    cases base with
    | none =>
      cases made
      simp only [operands]
      omega
    | some base =>
      cases made
      have receiver := Spelled.receiver_slot fits.2.2.2.2.1 found
      simp only [operands, List.length_append]
      omega

theorem operands_of_fields {fields : Fields Spelled} (fits : fields.All Spelled.Fits)
    (made : ofFields? fields = some e) : e.operands.length ≤ fields.total Spelled.weight + 1 := by
  simp only [ofFields?, Option.bind_eq_bind, Option.bind_eq_some_iff, Prod.exists] at made
  obtain ⟨tag, rest, taken, kind, _, slots, filled, made⟩ := made
  have distinct : kind.fieldNames.Nodup := (List.nodup_cons.mp kind.fieldNames_distinct).2
  calc
    _ ≤ slotsSize Spelled.weight slots + 1 :=
      operands_of_slots ((fits.tagged taken).slots filled) made
    _ ≤ rest.total Spelled.weight + 1 := Nat.succ_le_succ (Fields.slotsSize_le distinct filled)
    _ ≤ fields.total Spelled.weight + 1 := Nat.succ_le_succ (Fields.total_of_tagged taken)

theorem spell_weight (j : Json) : (spell j).weight = j.weight := by
  cases j <;> rfl

theorem operandsOf_le {parts : List Spelled} (fits : ∀ s ∈ parts, s.Fits)
    (made : parts.mapM (·.expr) = some es) : (operandsOf es).length ≤ (parts.map Spelled.weight).sum := by
  induction parts generalizing es with
  | nil =>
    cases made
    exact Nat.le_refl _
  | cons s parts ih =>
    simp only [List.mapM_cons, Option.bind_eq_bind, Option.bind_eq_some_iff, Option.pure_def,
      Option.some.injEq] at made
    obtain ⟨e, first, rest, others, rfl⟩ := made
    obtain ⟨here, later⟩ := List.forall_mem_cons.mp fits
    simp only [operandsOf, List.length_append, List.map_cons, List.sum_cons]
    exact Nat.add_le_add (here.expr e first) (ih later others)

theorem spellItems_eq (items : List Json) : spellItems items = items.map spell := by
  induction items with
  | nil => rfl
  | cons item items ih => rw [spellItems, ih, List.map_cons]

mutual

theorem spell_fits (j : Json) : (spell j).Fits := by
  match j with
  | .arr items =>
    have parts : (Fields.listed (spellItems items)).All Spelled.Fits := spellItems_fits items
    have total : (spell (.arr items)).weight = (Fields.listed (spellItems items)).total Spelled.weight + 1 := by
      rw [spell_weight, Json.weight, Json.weightItems_eq, Fields.total, spellItems_eq, List.map_map]
      exact congrArg (List.sum · + 1) (List.map_congr_left fun item _ => (spell_weight item).symm)
    refine ⟨fun e made => ?_, fun es made => ?_⟩
    · exact total ▸ operands_of_fields parts made
    · exact total ▸ (operandsOf_le parts made).trans (Nat.le_succ _)
  | .obj entries =>
    have parts : (Fields.named (spellEntries entries)).All Spelled.Fits := spellEntries_fits entries
    have total : (spell (.obj entries)).weight =
        (Fields.named (spellEntries entries)).total Spelled.weight + 1 := by
      rw [spell_weight, Json.weight, Json.weightEntries_eq, Fields.total, spellEntries_eq, List.map_map]
      exact congrArg (List.sum · + 1) (List.map_congr_left fun entry _ => (spell_weight entry.2).symm)
    refine ⟨fun e made => ?_, fun es made => ?_⟩
    · exact total ▸ operands_of_fields parts made
    · cases made
  | .null | .bool _ | .int _ | .real | .str _ =>
    refine ⟨fun e made => ?_, fun es made => ?_⟩
    · cases made
    · cases made

theorem spellItems_fits (items : List Json) : ∀ s ∈ spellItems items, s.Fits := by
  match items with
  | [] => exact fun _ member => absurd member List.not_mem_nil
  | item :: items => exact List.forall_mem_cons.mpr ⟨spell_fits item, spellItems_fits items⟩

theorem spellEntries_fits (entries : List (String × Json)) :
    ∀ entry ∈ spellEntries entries, entry.2.Fits := by
  match entries with
  | [] => exact fun _ member => absurd member List.not_mem_nil
  | (key, j) :: entries => exact List.forall_mem_cons.mpr ⟨spell_fits j, spellEntries_fits entries⟩

end

theorem operands_le (decoded : ofJson? j = some e) : e.operands.length ≤ j.weight :=
  spell_weight j ▸ (spell_fits j).expr e decoded

theorem operands_le_slot {slot : Option Json} (found : ∃ j, slot = some j ∧ ofJson? j = some e) :
    e.operands.length ≤ slotSize weight slot := by
  obtain ⟨j, rfl, decoded⟩ := found
  exact operands_le decoded

end Expr

namespace Stmt

theorem operands_assign_le (lhs rhs : Expr) :
    (assign lhs rhs).operands.length ≤ lhs.operands.length + rhs.operands.length := by
  cases lhs <;> simp [operands]

theorem returned {slot : Option Json} (found : orDefault none result? slot = some (some e)) :
    ∃ j, slot = some j ∧ Expr.ofJson? j = some e := by
  cases slot with
  | none => cases found
  | some j =>
    simp only [orDefault, result?] at found
    split at found
    · cases found
    · obtain ⟨e', decoded, same⟩ := Option.map_eq_some_iff.mp found
      cases same
      exact ⟨j, rfl, decoded⟩

theorem operands_of_slots {kind : Kind} {slots : List (Option Json)} (made : ofSlots? kind slots = some s) :
    s.operands.length ≤ slotsSize weight slots := by
  unfold ofSlots? at made
  split at made
  case h_10 => cases made
  case h_9 =>
    cases made
    exact Nat.zero_le _
  all_goals
    simp only [Option.bind_eq_bind, Option.bind_eq_some_iff, Option.some.injEq] at made
    simp only [slotsSize, List.map_cons, List.sum_cons]
  case h_1 =>
    obtain ⟨_, _, _, value, rfl⟩ := made
    have only := Expr.operands_le_slot value
    simp only [operands]
    omega
  case h_2 =>
    obtain ⟨lhs, left, rhs, right, rfl⟩ := made
    have both := operands_assign_le lhs rhs
    have first := Expr.operands_le_slot left
    have second := Expr.operands_le_slot right
    omega
  case h_3 =>
    obtain ⟨_, condition, _, _, rfl⟩ := made
    have only := Expr.operands_le_slot condition
    simp only [operands]
    omega
  case h_4 =>
    obtain ⟨_, _, rfl⟩ := made
    exact Nat.zero_le _
  case h_5 =>
    obtain ⟨_, key, _, _, _, _, rfl⟩ := made
    have only := Expr.operands_le_slot key
    simp only [operands]
    omega
  case h_6 | h_8 =>
    obtain ⟨_, value, rfl⟩ := made
    have only := Expr.operands_le_slot value
    simp only [operands]
    omega
  case h_7 slot =>
    obtain ⟨result, found, rfl⟩ := made
    cases result with
    | none => exact Nat.zero_le _
    | some e =>
      have only := Expr.operands_le_slot (returned found)
      simp only [operands]
      omega

theorem operands_lt (decoded : ofJson? j = some s) : s.operands.length < j.weight := by
  simp only [ofJson?, Option.bind_eq_bind, Option.bind_eq_some_iff, Prod.exists] at decoded
  obtain ⟨fields, found, tag, rest, taken, kind, _, slots, filled, made⟩ := decoded
  have distinct : kind.fieldNames.Nodup := (List.nodup_cons.mp kind.fieldNames_distinct).2
  rw [Json.weight_of_fields found]
  apply Nat.lt_succ_of_le
  calc
    _ ≤ slotsSize weight slots := operands_of_slots made
    _ ≤ rest.total weight := Fields.slotsSize_le distinct filled
    _ ≤ fields.total weight := Fields.total_of_tagged taken

end Stmt

/-! ### Bodies -/

/-- An instruction and its operands. -/
def Instruction.extent (i : Instruction) : Nat := i.stmt.operands.length + 1

theorem Instruction.extent_le (decoded : ofJson? j = some i) : i.extent ≤ j.weight := by
  simp only [ofJson?, Option.bind_eq_bind, Option.bind_eq_some_iff] at decoded
  obtain ⟨fields, found, slots, filled, decoded⟩ := decoded
  have smaller := Json.slotsSize_lt (by decide) found filled
  split at decoded
  next stmt span =>
    simp only [Option.bind_eq_some_iff, Option.some.injEq] at decoded
    obtain ⟨s, ⟨j', rfl, inner⟩, _, _, rfl⟩ := decoded
    have operands := Stmt.operands_lt inner
    simp only [slotsSize, List.map_cons, List.sum_cons, slotSize, Option.elim_some] at smaller
    simp only [extent]
    omega
  next => cases decoded

def Body.extent (b : Body) : Nat := (b.code.map Instruction.extent).sum

theorem Body.extent_le (decoded : ofJson? j = some b) : b.extent ≤ j.weight := by
  simp only [ofJson?, Option.bind_eq_bind, Option.bind_eq_some_iff] at decoded
  obtain ⟨fields, found, slots, filled, decoded⟩ := decoded
  have smaller := Json.slotsSize_lt (by decide) found filled
  split at decoded
  next locals code =>
    simp only [Option.bind_eq_some_iff, Option.some.injEq] at decoded
    obtain ⟨_, _, instructions, ⟨j', rfl, inner⟩, rfl⟩ := decoded
    have together := Json.list?_sum_lt (fun _ _ => Instruction.extent_le) inner
    simp only [slotsSize, List.map_cons, List.sum_cons, slotSize, Option.elim_some] at smaller
    simp only [extent]
    omega
  next => cases decoded

/-! ### Classes -/

/-- The body as it was given, and one for the method itself. -/
def Method.weight (m : Method) : Nat := m.body.elim 0 Json.weight + 1

theorem Method.weight_le (decoded : ofJson? j = some m) : m.weight ≤ j.weight := by
  simp only [ofJson?, Option.bind_eq_bind, Option.bind_eq_some_iff] at decoded
  obtain ⟨fields, found, slots, filled, decoded⟩ := decoded
  have smaller := Json.slotsSize_lt (by decide) found (Fields.slots_of_slotsOnce filled)
  split at decoded
  next name signature startLine startColumn body =>
    simp only [Option.bind_eq_some_iff, Option.some.injEq] at decoded
    obtain ⟨_, _, _, _, _, _, _, _, raw, given, rfl⟩ := decoded
    have kept : raw.elim 0 Json.weight ≤ slotSize Json.weight body := by
      cases body with
      | none =>
        cases given
        exact Nat.le_refl _
      | some j =>
        simp only [orDefault, rawBody?] at given
        split at given <;> cases given
        · exact Nat.zero_le _
        · exact Nat.le_refl _
    simp only [slotsSize, List.map_cons, List.sum_cons] at smaller
    simp only [weight]
    omega
  next => cases decoded

namespace Class

def weight (c : Class) : Nat := (c.methods.map Method.weight).sum

theorem weight_le (decoded : ofJson? j = some c) : c.weight ≤ j.weight := by
  simp only [ofJson?, Option.bind_eq_bind, Option.bind_eq_some_iff] at decoded
  obtain ⟨fields, found, slots, filled, decoded⟩ := decoded
  have smaller := Json.slotsSize_lt (by decide) found (Fields.slots_of_slotsOnce filled)
  split at decoded
  next package name sourceFile methods =>
    simp only [Option.bind_eq_some_iff, Option.some.injEq] at decoded
    obtain ⟨_, _, _, _, _, _, listed, given, rfl⟩ := decoded
    have kept : (listed.map Method.weight).sum ≤ slotSize Json.weight methods := by
      cases methods with
      | none =>
        cases given
        exact Nat.le_refl _
      | some j => exact (Json.list?_sum_lt (fun _ _ => Method.weight_le) given).le
    simp only [slotsSize, List.map_cons, List.sum_cons] at smaller
    simp only [weight]
    omega
  next => cases decoded

/-- The classes of a document are no larger than its text. -/
theorem weight_le_of_bytes {bytes : ByteArray} {classes : List Class}
    (decoded : ofBytes? bytes = some classes) : (classes.map weight).sum ≤ bytes.size := by
  simp only [ofBytes?, Option.bind_eq_bind, Option.bind_eq_some_iff] at decoded
  obtain ⟨text, utf8, j, read, document⟩ := decoded
  have same : text.toUTF8 = bytes := by
    unfold String.fromUTF8? at utf8
    split at utf8 <;> cases utf8
    rfl
  have fits : (classes.map weight).sum ≤ j.weight := by
    unfold ofDocument? at document
    split at document
    next list =>
      cases document
      exact (Json.list?_sum_lt (fun _ _ => weight_le) list).le
    next =>
      obtain ⟨c, single, rfl⟩ := Option.map_eq_some_iff.mp document
      simpa using weight_le single
  calc
    _ ≤ j.weight := fits
    _ ≤ text.toList.length := Json.weight_le_of_read? read
    _ ≤ text.toUTF8.size := Text.length_le_size text
    _ = bytes.size := congrArg ByteArray.size same

end Class
end ProgramDependence
