import Mathlib.Algebra.Order.BigOperators.Group.List
import Mathlib.Algebra.Order.Ring.Nat
import ProgramDependence.Json.Fields

/-! What the slots of a record hold: under different names different entries, so that together they are no
larger than the record. -/
namespace ProgramDependence.Json.Fields

variable {α : Type} {entries : List (String × α)} {key other : String} {x : α}

theorem last?_cons (key : String) (x : α) (entries : List (String × α)) (name : String) :
    last? ((key, x) :: entries) name = (last? entries name).or (if key = name then some x else none) := by
  simp only [last?, List.reverse_cons, List.find?_append, Option.map_or]
  by_cases same : key = name <;> simp [same]

theorem last?_cons_of_ne (differs : key ≠ other) :
    last? ((other, x) :: entries) key = last? entries key := by
  rw [last?_cons, if_neg (Ne.symm differs), Option.or_none]

theorem last?_eq_none (absent : key ∉ entries.map (·.1)) : last? entries key = none := by
  induction entries with
  | nil => rfl
  | cons entry entries ih =>
    rw [List.map_cons, List.mem_cons, not_or] at absent
    rw [last?_cons_of_ne absent.1, ih absent.2]

theorem last?_cons_self (absent : key ∉ entries.map (·.1)) :
    last? ((key, x) :: entries) key = some x := by
  rw [last?_cons, last?_eq_none absent, if_pos rfl, Option.none_or]

/-- An entry is not looked at under other names. -/
theorem map_last?_cons {names : List String} (absent : key ∉ names) (x : α) (entries : List (String × α)) :
    names.map (last? ((key, x) :: entries)) = names.map (last? entries) := by
  apply List.map_congr_left
  intro other member
  exact last?_cons_of_ne fun same => absent (same ▸ member)

/-- Entries under different keys fill the slots of their keys. -/
theorem slots_of_distinct (distinct : (entries.map (·.1)).Nodup) :
    (entries.map (·.1)).map (last? entries) = entries.map fun entry => some entry.2 := by
  induction entries with
  | nil => rfl
  | cons entry entries ih =>
    obtain ⟨key, x⟩ := entry
    obtain ⟨absent, others⟩ := List.nodup_cons.mp distinct
    simp only [List.map_cons] at absent others ⊢
    rw [last?_cons_self absent, map_last?_cons absent x entries, ih others]

/-- A variant that was written with its tag in front. -/
theorem tagged_named {tag : α} (absent : "kind" ∉ entries.map (·.1)) :
    (Fields.named (("kind", tag) :: entries)).tagged =
      some (tag, .named (("kind", tag) :: entries)) := by
  simp only [tagged, last?_cons_self absent, Option.map_some]

theorem slots_named {tag : α} (distinct : ("kind" :: entries.map (·.1)).Nodup) :
    (Fields.named (("kind", tag) :: entries)).slots (entries.map (·.1)) =
      some (entries.map fun entry => some entry.2) := by
  obtain ⟨absent, others⟩ := List.nodup_cons.mp distinct
  simp only [slots, map_last?_cons absent, slots_of_distinct others]

variable {P : α → Prop} {fields rest : Fields α} {names : List String} {found : List (Option α)}

/-- It holds of all fields. -/
def All (P : α → Prop) : Fields α → Prop
  | .named entries => ∀ entry ∈ entries, P entry.2
  | .listed items => ∀ item ∈ items, P item

theorem All.slots (all : fields.All P) (filled : fields.slots names = some found) :
    ∀ slot ∈ found, ∀ x ∈ slot, P x := by
  intro slot member x there
  cases fields with
  | named entries =>
    cases filled
    obtain ⟨name, _, rfl⟩ := List.mem_map.mp member
    obtain ⟨entry, last, rfl⟩ := Option.map_eq_some_iff.mp there
    exact all entry (List.mem_reverse.mp (List.mem_of_find?_eq_some last))
  | listed items =>
    simp only [Fields.slots] at filled
    split at filled <;> cases filled
    rcases List.mem_append.mp member with given | absent
    · obtain ⟨item, inside, rfl⟩ := List.mem_map.mp given
      cases there
      exact all x inside
    · rw [List.eq_of_mem_replicate absent] at there
      cases there

theorem All.tagged {tag : α} (all : fields.All P) (taken : fields.tagged = some (tag, rest)) :
    rest.All P := by
  cases fields with
  | named entries =>
    obtain ⟨_, _, same⟩ := Option.map_eq_some_iff.mp taken
    cases same
    exact all
  | listed items =>
    cases items with
    | nil => cases taken
    | cons item items =>
      cases taken
      exact fun item member => all item (List.mem_cons_of_mem _ member)

/-! ### Sizes -/

variable {size : α → Nat}

/-- All fields together. -/
def total (size : α → Nat) : Fields α → Nat
  | .named entries => (entries.map fun entry => size entry.2).sum
  | .listed items => (items.map size).sum

/-- An empty slot counts nothing. -/
def slotSize (size : α → Nat) (slot : Option α) : Nat := slot.elim 0 size

/-- All slots together. -/
def slotsSize (size : α → Nat) (slots : List (Option α)) : Nat := (slots.map (slotSize size)).sum

/-- An entry is the last one under at most one of several names. -/
theorem slotsSize_cons_le (distinct : names.Nodup) (key : String) (x : α) (entries : List (String × α)) :
    slotsSize size (names.map (last? ((key, x) :: entries))) ≤
      size x + slotsSize size (names.map (last? entries)) := by
  induction names with
  | nil => exact Nat.zero_le _
  | cons name names ih =>
    obtain ⟨absent, others⟩ := List.nodup_cons.mp distinct
    simp only [slotsSize, List.map_cons, List.sum_cons] at ih ⊢
    by_cases same : key = name
    · subst same
      have here : slotSize size (last? ((key, x) :: entries) key) ≤
          size x + slotSize size (last? entries key) := by
        rw [last?_cons, if_pos rfl]
        cases last? entries key with
        | none => exact Nat.le_add_right _ _
        | some y => exact Nat.le_add_left _ _
      rw [map_last?_cons absent x entries]
      omega
    · rw [last?_cons_of_ne (Ne.symm same)]
      have later := ih others
      omega

theorem slotsSize_le (distinct : names.Nodup) (filled : fields.slots names = some found) :
    slotsSize size found ≤ fields.total size := by
  cases fields with
  | named entries =>
    cases filled
    induction entries with
    | nil =>
      have empty (name : String) : slotSize size (last? [] name) = 0 := rfl
      simp [slotsSize, empty, Function.comp_def]
    | cons entry entries ih =>
      calc
        _ ≤ size entry.2 + slotsSize size (names.map (last? entries)) :=
          slotsSize_cons_le distinct entry.1 entry.2 entries
        _ ≤ size entry.2 + (Fields.named entries).total size := Nat.add_le_add_left ih _
  | listed items =>
    simp only [slots] at filled
    split at filled <;> cases filled
    simp [total, slotsSize, slotSize, Function.comp_def]

theorem total_of_tagged {tag : α} (taken : fields.tagged = some (tag, rest)) :
    rest.total size ≤ fields.total size := by
  cases fields with
  | named entries =>
    obtain ⟨_, _, same⟩ := Option.map_eq_some_iff.mp taken
    cases same
    exact Nat.le_refl _
  | listed items =>
    cases items with
    | nil => cases taken
    | cons item items =>
      cases taken
      exact Nat.le_add_left _ _

theorem slots_of_slotsOnce (filled : fields.slotsOnce names = some found) :
    fields.slots names = some found := by
  cases fields with
  | named entries =>
    simp only [slotsOnce] at filled
    split at filled
    · exact filled
    · cases filled
  | listed items => exact filled

end ProgramDependence.Json.Fields
