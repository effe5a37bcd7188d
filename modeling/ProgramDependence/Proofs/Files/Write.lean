import Mathlib.Data.List.Basic
import ProgramDependence.Files.Tree

/-! A file that was written is found where it was written to. Folders stay folders and keep what is in them,
so the path leads the same way as before. -/
namespace ProgramDependence

namespace FileTree

variable {t new : FileTree} {entries : List (String × FileTree)} {name : String}

theorem lookup_cons_if (key : String) (t : FileTree) (entries : List (String × FileTree)) (name : String) :
    ((key, t) :: entries).lookup name = if name = key then some t else entries.lookup name := by
  by_cases same : name = key
  · subst same
    simp
  · have differs : (name == key) = false := beq_false_of_ne same
    rw [List.lookup_cons, differs, if_neg same]

theorem lookup_setEntry (key : String) (t : FileTree) (entries : List (String × FileTree)) (name : String) :
    (setEntry key t entries).lookup name = if name = key then some t else entries.lookup name := by
  induction entries with
  | nil => exact lookup_cons_if key t [] name
  | cons entry entries ih =>
    obtain ⟨other, t'⟩ := entry
    simp only [setEntry]
    split
    next here =>
      rw [lookup_cons_if, lookup_cons_if, here]
      split <;> rfl
    next differs =>
      rw [lookup_cons_if, lookup_cons_if, ih]
      by_cases same : name = other
      · rw [if_pos same, if_pos same, if_neg (same ▸ differs)]
      · rw [if_neg same, if_neg same]

theorem follow?_concat (name : String) (place : List String)
    (folder : t.follow? place = some (.folder entries)) : t.follow? (place ++ [name]) = entries.lookup name := by
  induction place generalizing t with
  | nil =>
    cases folder
    simp only [List.nil_append, follow?, child?]
    cases entries.lookup name <;> rfl
  | cons first place ih =>
    simp only [List.cons_append, follow?] at folder ⊢
    split at folder
    · cases folder
    next inner entered => exact ih folder

/-- Where it was put, there it is. -/
theorem follow?_graft (new : FileTree) (name : String) (place : List String)
    (folder : t.follow? place = some (.folder entries)) :
    (t.graft new (place ++ [name])).follow? (place ++ [name]) = some new := by
  induction place generalizing t with
  | nil =>
    cases folder
    simp [graft, follow?, child?, lookup_setEntry]
  | cons first place ih =>
    simp only [follow?] at folder
    split at folder
    · cases folder
    next inner entered =>
      cases t with
      | folder outer =>
        have below : outer.lookup first = some inner := entered
        simp only [List.cons_append, graft, follow?, child?, lookup_setEntry, ↓reduceIte, below,
          Option.getD_some]
        exact ih folder
      | _ => cases entered

theorem eq_folder_of_follow? {path : List String} (found : t.follow? path = some (.folder entries)) :
    ∃ inside, t = .folder inside := by
  cases t with
  | folder inside => exact ⟨inside, rfl⟩
  | _ => cases path <;> cases found

/-- Whatever is put in a place where there is no folder, all folders are there still, with everything that
was in them. -/
theorem follow?_graft_folder (new : FileTree) (names path : List String) (below : names ≠ [])
    (notFolder : ∀ inside, t.follow? names ≠ some (.folder inside))
    (folder : t.follow? path = some (.folder entries)) :
    ∃ entries', (t.graft new names).follow? path = some (.folder entries') ∧
      ∀ c, (entries.lookup c).isSome → (entries'.lookup c).isSome := by
  obtain ⟨first, names, rfl⟩ := List.exists_cons_of_ne_nil below
  obtain ⟨outer, rfl⟩ := eq_folder_of_follow? folder
  induction path generalizing outer first names with
  | nil =>
    cases folder
    refine ⟨_, rfl, fun c there => ?_⟩
    rw [lookup_setEntry]
    split
    · rfl
    · exact there
  | cons next path ih =>
    simp only [follow?, child?] at folder
    split at folder
    · cases folder
    next inner entered =>
      simp only [graft, follow?, child?, lookup_setEntry]
      by_cases same : next = first
      · subst same
        simp only [↓reduceIte, entered, Option.getD_some]
        obtain ⟨inside, rfl⟩ := eq_folder_of_follow? folder
        simp only [follow?, child?, entered] at notFolder
        cases names with
        | nil => exact absurd rfl (notFolder inside)
        | cons second names => exact ih second names (by simp) inside folder notFolder
      · rw [if_neg same, entered]
        exact ⟨entries, folder, fun _ there => there⟩

end FileTree

namespace Disk

variable {d : Disk} {place : List String}

theorem walk_append (first second : List String) :
    d.walk place (first ++ second) = (d.walk place first).bind (d.walk · second) := by
  induction first generalizing place with
  | nil => rfl
  | cons c first ih =>
    simp only [List.cons_append, walk]
    split
    · split
      · exact ih
      · split
        · exact ih
        · split
          · exact ih
          · rfl
    · rfl

/-- A way that existed leads to the same place after something was put where there is no folder. -/
theorem walk_graft (new : FileTree) (names : List String) (below : names ≠ [])
    (notFolder : ∀ inside, d.root.follow? names ≠ some (.folder inside)) {stop : List String}
    (way : List String) (walked : d.walk place way = some stop) :
    walk { d with root := d.root.graft new names } place way = some stop := by
  induction way generalizing place with
  | nil => exact walked
  | cons c way ih =>
    simp only [walk] at walked ⊢
    split at walked
    next entries folder =>
      obtain ⟨entries', folder', kept⟩ :=
        FileTree.follow?_graft_folder new names place below notFolder folder
      rw [folder']
      dsimp only
      split at walked
      next stays => rw [if_pos stays, ih walked]
      next moves =>
        rw [if_neg moves]
        split at walked
        next back => rw [if_pos back, ih walked]
        next on =>
          rw [if_neg on]
          split at walked
          next there => rw [if_pos (kept c there), ih walked]
          · cases walked
    · cases walked

/-- Something is written into a folder that exists, where no other folder is in the way. -/
theorem write?_cases {d' : Disk} {path : String} {bytes : ByteArray} (written : d.write? path bytes = some d') :
    ∃ way name place entries, Path.components path = way ++ [name] ∧ (name ≠ "" ∧ name ≠ "." ∧ name ≠ "..") ∧
      d.walk (d.startOf path) way = some place ∧ d.root.follow? place = some (.folder entries) ∧
      (∀ inside, entries.lookup name ≠ some (.folder inside)) ∧
      d' = { d with root := d.root.graft (.file bytes) (place ++ [name]) } := by
  simp only [write?, Option.bind_eq_bind, Option.bind_eq_some_iff] at written
  obtain ⟨name, last, place, walked, tree, there, rest⟩ := written
  have parts : Path.components path = (Path.components path).dropLast ++ [name] :=
    (List.dropLast_append_getLast? name last).symm
  split at rest
  · cases rest
  next sensible =>
    split at rest
    · cases rest
    next free =>
      cases rest
      cases tree with
      | folder entries =>
        simp only [FileTree.isFolder, Bool.not_true, Bool.false_or, Bool.or_eq_true, decide_eq_true_eq,
          not_or] at sensible
        refine ⟨_, name, place, entries, parts, ⟨sensible.1.1, sensible.1.2, sensible.2⟩, walked, there, ?_, rfl⟩
        intro inside occupied
        rw [FileTree.child?, occupied] at free
        exact free rfl
      | _ => exact absurd rfl sensible

/-- The file that was written is found under the same path. -/
theorem find?_write? {d' : Disk} {path : String} {bytes : ByteArray}
    (written : d.write? path bytes = some d') : d'.find? path = some (.file bytes) := by
  obtain ⟨way, name, place, entries, parts, ⟨named, notHere, notUp⟩, walked, folder, free, rfl⟩ :=
    write?_cases written
  have below : place ++ [name] ≠ [] := by simp
  have notFolder : ∀ inside, d.root.follow? (place ++ [name]) ≠ some (.folder inside) := by
    rw [FileTree.follow?_concat name place folder]
    exact free
  have written := FileTree.follow?_graft (.file bytes) name place folder
  obtain ⟨entries', folder', -⟩ :=
    FileTree.follow?_graft_folder (.file bytes) (place ++ [name]) place below notFolder folder
  have present : (entries'.lookup name).isSome := by
    rw [← FileTree.follow?_concat name place folder', written]
    rfl
  have arrived := walk_graft (.file bytes) _ below notFolder way walked
  have nonempty : path ≠ "" := by
    rintro rfl
    have last := congrArg List.getLast? parts
    rw [List.getLast?_concat] at last
    exact named (Option.some.inj last).symm
  have entered : walk { d with root := d.root.graft (.file bytes) (place ++ [name]) } place [name] =
      some (place ++ [name]) := by
    simp [walk, folder', named, notHere, notUp, present]
  rw [find?, if_neg nonempty, parts, walk_append]
  change Option.bind (Option.bind (walk _ (d.startOf path) way) _) _ = _
  rw [arrived, Option.bind_some, entered]
  exact written

end Disk
end ProgramDependence
