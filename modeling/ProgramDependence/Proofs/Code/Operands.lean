import ProgramDependence.Code.Encode
import ProgramDependence.Proofs.Json.Fields
import ProgramDependence.Proofs.Json.Places
import ProgramDependence.Proofs.Locals.Renaming
import ProgramDependence.Proofs.Method.DataDependence

/-! The operands of a statement against the JSON that it is written as. An operand is an object of kind `local`
or `constant`, wherever it stands; only a local that is all of the left of an assignment is written and not
read. -/
namespace ProgramDependence

/-! ### Operands in JSON -/

namespace Json

/-- The local or the constant that a value is, by its kind. -/
def operand? : Json → Option Operand
  | .obj entries => do
    let field (name : String) := (Fields.last? entries name).bind Json.text?
    match ← field "kind" with
    | "local" => some (.localVar (← field "name"))
    | "constant" => some (.constant (← field "type") (← field "text"))
    | _ => none
  | _ => none

/-- The locals and constants met from left to right, the value itself included. -/
def operands (j : Json) : List Operand := j.places.filterMap fun place => place.value.operand?

theorem operands_under (step : Step) (j : Json) :
    (j.places.map (Place.under step)).filterMap (fun place => place.value.operand?) = j.operands := by
  rw [List.filterMap_map]
  rfl

theorem operands_obj (entries : List (String × Json)) : (Json.obj entries).operands =
    (operand? (.obj entries)).toList ++ entries.flatMap fun entry => entry.2.operands := by
  rw [operands, places, placesOfEntries_eq]
  simp only [List.filterMap_cons, List.filterMap_flatMap, operands_under]
  cases operand? (.obj entries) <;> rfl

theorem operands_arr (items : List Json) : (Json.arr items).operands = items.flatMap operands := by
  have counted (first : Nat) : (placesOfItems first items).filterMap (fun place => place.value.operand?) =
      items.flatMap operands := by
    induction items generalizing first with
    | nil => rfl
    | cons item items ih =>
      rw [placesOfItems, List.filterMap_append, operands_under, ih, List.flatMap_cons]
  exact counted 0

theorem operand?_tagged {tag : String} {entries : List (String × Json)} (absent : "kind" ∉ entries.map (·.1))
    (other : tag ≠ "local" ∧ tag ≠ "constant") :
    operand? (.obj (("kind", .str tag) :: entries)) = none := by
  simp [operand?, Fields.last?_cons_self absent, text?, other]

/-- An object of another kind has the operands of its fields. -/
theorem operands_tagged {tag : String} {entries : List (String × Json)} (absent : "kind" ∉ entries.map (·.1))
    (other : tag ≠ "local" ∧ tag ≠ "constant") :
    (Json.obj (("kind", .str tag) :: entries)).operands = entries.flatMap fun entry => entry.2.operands := by
  rw [operands_obj, operand?_tagged absent other, Option.toList_none, List.nil_append, List.flatMap_cons]
  rfl

theorem operands_str (s : String) : (Json.str s).operands = [] := rfl

theorem operands_null : Json.null.operands = [] := rfl

theorem operands_word (n : UInt64) : (Json.word n).operands = [] := rfl

/-- A list of values none of which has an operand. -/
theorem operands_list {toJson : β → Json} (plain : ∀ x, (toJson x).operands = []) (xs : List β) :
    (Json.arr (xs.map toJson)).operands = [] := by
  rw [operands_arr, List.flatMap_map]
  exact List.flatMap_eq_nil_iff.mpr fun x _ => plain x

theorem operands_texts (strings : List String) : (Json.texts strings).operands = [] :=
  operands_list operands_str strings

theorem operands_words (ns : List UInt64) : (Json.arr (ns.map Json.word)).operands = [] :=
  operands_list operands_word ns

end Json

/-! ### Expressions -/

namespace Expr

open Json (operands_tagged operands_str operands_null operands_word operands_texts operands_arr)

mutual

theorem operands_toJson (e : Expr) : e.toJson.operands = e.operands := by
  match e with
  | .localVar _ | .constant .. => rfl
  | .parameter .. | .receiver _ | .caught _ | .staticField .. | .create _ => rfl
  | .instanceField base .. | .negate base | .length base | .cast _ base | .instanceOf _ base
  | .createArray _ base =>
    simp [toJson, operands, operands_tagged, operands_str, operands_toJson base]
  | .element lhs rhs _ | .binary _ lhs rhs =>
    simp [toJson, operands, operands_tagged, operands_str, operands_toJson lhs, operands_toJson rhs]
  | .createGrid _ es | .staticCall _ _ _ _ es =>
    simp [toJson, operands, operands_tagged, operands_str, operands_null, operands_texts, operands_arr,
      operands_toJsons es]
  | .virtualCall base _ _ _ _ es =>
    simp [toJson, operands, operands_tagged, operands_str, operands_texts, operands_arr,
      operands_toJson base, operands_toJsons es]

theorem operands_toJsons (es : List Expr) : (toJsons es).flatMap Json.operands = operandsOf es := by
  match es with
  | [] => rfl
  | e :: es => rw [toJsons, List.flatMap_cons, operands_toJson e, operands_toJsons es, operandsOf]

end

theorem operand?_toJson (e : Expr) : e.toJson.operand? = some (.localVar name) ↔ e.local? = some name := by
  cases e with
  | localVar other =>
    have itself : (Expr.localVar other).toJson.operand? = some (.localVar other) := rfl
    simp [itself, local?]
  | constant ty text =>
    have itself : (Expr.constant ty text).toJson.operand? = some (.constant ty text) := rfl
    simp [itself, local?]
  | _ => exact ⟨nofun, nofun⟩

end Expr

/-! ### Statements -/

open Json (Step Place)

namespace Json.Place

/-- The operand that a statement reads at a place. A local that is all of the left of an assignment is not
read. -/
def read? (place : Place) : Option Operand :=
  match place.path, place.value.operand? with
  | [.key "lhs"], some (.localVar _) => none
  | _, operand => operand

variable {place : Place}

theorem read?_of_ne (elsewhere : place.path ≠ [.key "lhs"]) : place.read? = place.value.operand? := by
  unfold read?
  split
  next left _ => exact absurd left elsewhere
  next => rfl

theorem read?_of_not_local (other : ∀ name, place.value.operand? ≠ some (.localVar name)) :
    place.read? = place.value.operand? := by
  unfold read?
  split
  next _ named => exact absurd named (other _)
  next => rfl

theorem read?_local : place.read? = some (.localVar name) ↔
    place.path ≠ [.key "lhs"] ∧ place.value.operand? = some (.localVar name) := by
  by_cases left : place.path = [.key "lhs"]
  · refine ⟨fun read => ?_, fun both => absurd left both.1⟩
    unfold read? at read
    split at read
    next => cases read
    next kept => exact absurd read (kept name left)
  · rw [read?_of_ne left]
    exact ⟨fun named => ⟨left, named⟩, And.right⟩

end Json.Place

namespace Stmt

/-- The operands met when the JSON of a statement is gone through from left to right. -/
def operandsMet (s : Stmt) : List Operand := s.toJson.places.filterMap Place.read?

/-- What a statement reads in one of its entries. -/
def readIn (key : String) (j : Json) : List Operand :=
  (j.places.map (Place.under (.key key))).filterMap Place.read?

theorem readIn_of_ne {key : String} (elsewhere : key ≠ "lhs") (j : Json) : readIn key j = j.operands := by
  rw [← Json.operands_under (.key key) j]
  apply List.filterMap_congr
  intro place member
  obtain ⟨path, first, _⟩ := Json.mem_under.mp member
  apply Place.read?_of_ne
  rw [first]
  intro same
  cases same
  exact elsewhere rfl

theorem readIn_left (lhs : Expr) :
    readIn "lhs" lhs.toJson = if lhs.local?.isSome then [] else lhs.operands := by
  split
  next plain =>
    cases lhs with
    | localVar name => rfl
    | _ => cases plain
  next other =>
    rw [← Expr.operands_toJson, ← Json.operands_under (.key "lhs")]
    apply List.filterMap_congr
    intro place member
    obtain ⟨path, first, inside⟩ := Json.mem_under.mp member
    cases path with
    | nil =>
      -- the left side itself, which is no local
      apply Place.read?_of_not_local
      intro name named
      rw [Json.mem_places_nil.mp inside, Expr.operand?_toJson] at named
      exact other (named ▸ rfl)
    | cons step path =>
      apply Place.read?_of_ne
      rw [first]
      nofun

theorem met_tagged {tag : String} {entries : List (String × Json)} (absent : "kind" ∉ entries.map (·.1))
    (other : tag ≠ "local" ∧ tag ≠ "constant") :
    (Json.obj (("kind", .str tag) :: entries)).places.filterMap Place.read? =
      entries.flatMap fun entry => readIn entry.1 entry.2 := by
  have itself : Place.read? ⟨[], .obj (("kind", .str tag) :: entries)⟩ = none :=
    (Place.read?_of_ne (List.cons_ne_nil _ _).symm).trans (Json.operand?_tagged absent other)
  have kind : readIn "kind" (.str tag) = [] := readIn_of_ne (by decide) (.str tag)
  rw [Json.places, List.filterMap_cons_none itself, Json.placesOfEntries_eq, List.filterMap_flatMap,
    List.flatMap_cons]
  exact congrArg (· ++ _) kind

/-- The operands are what is met. -/
theorem operands_eq_met (s : Stmt) : s.operands = s.operandsMet := by
  unfold operandsMet
  cases s with
  | assign lhs rhs =>
    simp [toJson, met_tagged, readIn_left, readIn_of_ne, operands_assign, Expr.operands_toJson]
  | ret value =>
    cases value <;>
      simp [toJson, met_tagged, readIn_of_ne, operands, Expr.operands_toJson, Json.operands_null]
  | switch key targets fallback =>
    simp [toJson, met_tagged, readIn_of_ne, operands, Expr.operands_toJson, Json.operands_word,
      Json.operands_words]
  | _ =>
    simp [toJson, met_tagged, readIn_of_ne, operands, Expr.operands_toJson, Json.operands_str,
      Json.operands_word]

/-- A local is named at a path: by a value of kind `local`, or as the target that an identity has for its
entry `local`. -/
def NamesAt (s : Stmt) (path : List Step) (name : String) : Prop :=
  ∃ v, s.toJson.Reaches path v ∧
    (v.operand? = some (.localVar name) ∨ path = [.key "local"] ∧ v = .str name)

/-- Where a statement has the local that it gives a value. -/
def targetPaths : List (List Step) := [[.key "lhs"], [.key "local"]]

theorem reaches_left {s : Stmt} {v : Json} :
    s.toJson.Reaches [.key "lhs"] v ↔ ∃ lhs rhs, s = .assign lhs rhs ∧ v = lhs.toJson := by
  cases s with
  | ret value => cases value <;> simp [toJson, Json.reaches_key]
  | _ => simp [toJson, Json.reaches_key]

theorem reaches_target {s : Stmt} {v : Json} :
    s.toJson.Reaches [.key "local"] v ↔ ∃ name value, s = .identity name value ∧ v = .str name := by
  cases s with
  | ret value => cases value <;> simp [toJson, Json.reaches_key]
  | _ => simp [toJson, Json.reaches_key]

theorem namesAt_left {s : Stmt} {name : String} :
    s.NamesAt [.key "lhs"] name ↔ ∃ lhs rhs, s = .assign lhs rhs ∧ lhs.local? = some name := by
  constructor
  · rintro ⟨v, reached, named | ⟨elsewhere, _⟩⟩
    · obtain ⟨lhs, rhs, rfl, rfl⟩ := reaches_left.mp reached
      exact ⟨lhs, rhs, rfl, lhs.operand?_toJson.mp named⟩
    · exact absurd elsewhere (by decide)
  · rintro ⟨lhs, rhs, rfl, named⟩
    exact ⟨lhs.toJson, reaches_left.mpr ⟨lhs, rhs, rfl, rfl⟩, .inl (lhs.operand?_toJson.mpr named)⟩

theorem namesAt_target {s : Stmt} {name : String} :
    s.NamesAt [.key "local"] name ↔ ∃ value, s = .identity name value := by
  constructor
  · rintro ⟨v, reached, there⟩
    obtain ⟨other, value, rfl, rfl⟩ := reaches_target.mp reached
    rcases there with named | ⟨_, same⟩
    · cases named
    · cases same
      exact ⟨value, rfl⟩
  · rintro ⟨value, rfl⟩
    exact ⟨.str name, reaches_target.mpr ⟨name, value, rfl, rfl⟩, .inr ⟨rfl, rfl⟩⟩

/-- The defined local is the one that stands as a target. -/
theorem definedLocal?_iff {s : Stmt} {name : String} :
    s.definedLocal? = some name ↔ ∃ path ∈ targetPaths, s.NamesAt path name := by
  simp only [targetPaths, List.mem_cons, List.not_mem_nil, or_false, exists_eq_or_imp, exists_eq_left,
    namesAt_left, namesAt_target]
  cases s <;> simp [definedLocal?]

/-- The used locals are those named anywhere else. -/
theorem mem_usedLocals_iff {s : Stmt} {name : String} :
    name ∈ s.usedLocals ↔ ∃ path, path ∉ targetPaths ∧ s.NamesAt path name := by
  rw [mem_usedLocals, operands_eq_met, operandsMet, List.mem_filterMap]
  constructor
  · rintro ⟨⟨path, v⟩, member, read⟩
    obtain ⟨elsewhere, named⟩ := Place.read?_local.mp read
    have reached := Json.mem_places.mp member
    refine ⟨path, ?_, v, reached, .inl named⟩
    simp only [targetPaths, List.mem_cons, List.not_mem_nil, or_false, not_or]
    refine ⟨elsewhere, ?_⟩
    rintro rfl
    obtain ⟨other, _, _, rfl⟩ := reaches_target.mp reached
    cases named
  · rintro ⟨path, elsewhere, v, reached, there⟩
    simp only [targetPaths, List.mem_cons, List.not_mem_nil, or_false, not_or] at elsewhere
    rcases there with named | ⟨target, _⟩
    · exact ⟨⟨path, v⟩, Json.mem_places.mpr reached, Place.read?_local.mpr ⟨elsewhere.1, named⟩⟩
    · exact absurd target elsewhere.2

/-- The operands of a statement are the locals and constants met when its JSON is gone through from left to
right, with repetitions, but for the local on the left of an assignment. So a local is used if it is named
anywhere but as the one that is defined, and its operand index is the first place where it is met. -/
theorem operands_as_met (s : Stmt) :
    s.operands = s.operandsMet ∧
    (∀ name, name ∈ s.usedLocals ↔ ∃ path, path ∉ targetPaths ∧ s.NamesAt path name) ∧
    (∀ name, s.definedLocal? = some name ↔ ∃ path ∈ targetPaths, s.NamesAt path name) ∧
    ∀ name i, s.operandIndex? name = some i ↔ s.operandsMet[i]? = some (.localVar name) ∧
      ∀ j < i, s.operandsMet[j]? ≠ some (.localVar name) := by
  have met := s.operands_eq_met
  refine ⟨met, fun name => mem_usedLocals_iff, fun name => definedLocal?_iff, fun name i => ?_⟩
  rw [operandIndex?_eq_some, FirstAt, met]

-- a parameter list that reads `["local", "x"]` is no local, and a constant on the left is an operand
example : (Stmt.assign (.constant "int" "local") (.staticCall "C" "m" ["local", "x"] "int"
    [.localVar "y", .localVar "y"])).operandsMet = [.constant "int" "local", .localVar "y", .localVar "y"] := by rfl

end Stmt
end ProgramDependence
