import ProgramDependence.Json.Value

/-! The values inside a JSON value, each with the way to it, in the order in which they are met from left to
right. None is skipped: what is met is what some way leads to. -/
namespace ProgramDependence.Json

/-- One step into an object or into an array. -/
inductive Step where
  | key (name : String)
  | index (position : Nat)
  deriving DecidableEq, Repr

structure Place where
  path : List Step
  value : Json

def Place.under (step : Step) (place : Place) : Place := ⟨step :: place.path, place.value⟩

mutual

/-- The value itself and then all that is inside it, depth first and from left to right. -/
def places : Json → List Place
  | .arr items => ⟨[], .arr items⟩ :: placesOfItems 0 items
  | .obj entries => ⟨[], .obj entries⟩ :: placesOfEntries entries
  | j => [⟨[], j⟩]

def placesOfItems (position : Nat) : List Json → List Place
  | [] => []
  | item :: items => item.places.map (.under (.index position)) ++ placesOfItems (position + 1) items

def placesOfEntries : List (String × Json) → List Place
  | [] => []
  | (name, j) :: entries => j.places.map (.under (.key name)) ++ placesOfEntries entries

end

/-- The second value stands directly inside the first. -/
inductive Child : Json → Step → Json → Prop
  | item {items : List Json} {position : Nat} {j : Json} (there : items[position]? = some j) :
    Child (.arr items) (.index position) j
  | entry {entries : List (String × Json)} {name : String} {j : Json} (there : (name, j) ∈ entries) :
    Child (.obj entries) (.key name) j

/-- The path leads from the first value to the second. -/
inductive Reaches : Json → List Step → Json → Prop
  | here {j : Json} : Reaches j [] j
  | step {j k v : Json} {step : Step} {path : List Step} (child : Child j step k)
    (further : Reaches k path v) : Reaches j (step :: path) v

theorem reaches_key {entries : List (String × Json)} {name : String} {v : Json} :
    (Json.obj entries).Reaches [.key name] v ↔ (name, v) ∈ entries := by
  constructor
  · rintro (_ | ⟨_ | there, ⟨⟩⟩)
    exact there
  · intro there
    exact .step (.entry there) .here

theorem placesOfEntries_eq (entries : List (String × Json)) :
    placesOfEntries entries = entries.flatMap fun entry => entry.2.places.map (.under (.key entry.1)) := by
  induction entries with
  | nil => rfl
  | cons entry entries ih => rw [placesOfEntries, ih, List.flatMap_cons]

theorem mem_under {place : Place} {step : Step} {inner : List Place} :
    place ∈ inner.map (.under step) ↔ ∃ path, place.path = step :: path ∧ ⟨path, place.value⟩ ∈ inner := by
  rw [List.mem_map]
  constructor
  · rintro ⟨within, member, rfl⟩
    exact ⟨within.path, rfl, member⟩
  · rintro ⟨path, first, member⟩
    refine ⟨_, member, ?_⟩
    rw [Place.under, ← first]

theorem mem_placesOfItems {place : Place} (first : Nat) (items : List Json) :
    place ∈ placesOfItems first items ↔ ∃ i item path, items[i]? = some item ∧
      place.path = .index (first + i) :: path ∧ ⟨path, place.value⟩ ∈ item.places := by
  induction items generalizing first with
  | nil => simp [placesOfItems]
  | cons item items ih =>
    rw [placesOfItems, List.mem_append, mem_under, ih]
    constructor
    · rintro (⟨path, here⟩ | ⟨i, other, path, there, place⟩)
      · exact ⟨0, item, path, rfl, here⟩
      · exact ⟨i + 1, other, path, there, by rwa [← Nat.add_assoc, Nat.add_right_comm]⟩
    · rintro ⟨i, other, path, there, place⟩
      cases i with
      | zero =>
        cases there
        exact .inl ⟨path, place⟩
      | succ i => exact .inr ⟨i, other, path, there, by rwa [Nat.add_right_comm, Nat.add_assoc]⟩

theorem mem_placesOfEntries {place : Place} (entries : List (String × Json)) :
    place ∈ placesOfEntries entries ↔ ∃ entry ∈ entries, ∃ path,
      place.path = .key entry.1 :: path ∧ ⟨path, place.value⟩ ∈ entry.2.places := by
  simp only [placesOfEntries_eq, List.mem_flatMap, mem_under]

theorem mem_places_nil {j v : Json} : ⟨[], v⟩ ∈ j.places ↔ v = j := by
  cases j <;> simp [places, mem_placesOfItems, mem_placesOfEntries]

theorem mem_places_cons {j v : Json} {step : Step} {path : List Step} :
    ⟨step :: path, v⟩ ∈ j.places ↔ ∃ inner, Child j step inner ∧ ⟨path, v⟩ ∈ inner.places := by
  constructor
  · intro member
    cases j with
    | arr items =>
      simp only [places, List.mem_cons, Place.mk.injEq, List.cons_ne_nil, false_and, false_or,
        mem_placesOfItems, List.cons.injEq, Nat.zero_add] at member
      obtain ⟨i, item, _, there, ⟨rfl, rfl⟩, inside⟩ := member
      exact ⟨item, .item there, inside⟩
    | obj entries =>
      simp only [places, List.mem_cons, Place.mk.injEq, List.cons_ne_nil, false_and, false_or,
        mem_placesOfEntries, List.cons.injEq] at member
      obtain ⟨entry, there, _, ⟨rfl, rfl⟩, inside⟩ := member
      exact ⟨entry.2, .entry there, inside⟩
    | _ => simp [places] at member
  · rintro ⟨inner, child, inside⟩
    cases child with
    | item there =>
      refine List.mem_cons_of_mem _ ((mem_placesOfItems 0 _).mpr ⟨_, inner, path, there, ?_, inside⟩)
      rw [Nat.zero_add]
    | entry there =>
      exact List.mem_cons_of_mem _ ((mem_placesOfEntries _).mpr ⟨_, there, path, rfl, inside⟩)

/-- What is met is what a path leads to. -/
theorem mem_places {path : List Step} {j v : Json} : ⟨path, v⟩ ∈ j.places ↔ j.Reaches path v := by
  induction path generalizing j with
  | nil =>
    rw [mem_places_nil]
    constructor
    · rintro rfl
      exact .here
    · rintro ⟨⟩
      rfl
  | cons step path ih =>
    rw [mem_places_cons]
    constructor
    · rintro ⟨inner, child, inside⟩
      exact .step child (ih.mp inside)
    · rintro (_ | ⟨child, further⟩)
      exact ⟨_, child, ih.mpr further⟩

end ProgramDependence.Json
