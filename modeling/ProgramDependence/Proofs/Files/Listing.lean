import Mathlib.Data.List.Nodup
import ProgramDependence.Files.Archive
import ProgramDependence.Proofs.Files.Paths
import ProgramDependence.Proofs.Files.Write

/-! The same files with their folders and archives listed in other orders. Paths lead to the same places, so
what they lead to is the same but for its listing. -/
namespace ProgramDependence

/-! ### Archives -/

namespace Archive

/-- What the entries are opened to, in their order. -/
def listing (a : Archive) : List (Except Cause ArchiveEntry) := (List.range a.count).map a.byIndex

def opened (a : Archive) : List ArchiveEntry := a.listing.filterMap Except.toOption

/-- An entry that no other one shares its name with is found by its name. -/
def Lawful (a : Archive) : Prop :=
  (a.opened.map (·.name)).Nodup → ∀ e ∈ a.opened, a.byName e.name = .ok e

/-- The same entries in another order. No name is listed twice. -/
structure Relisted (a a' : Archive) : Prop where
  distinct : (a.opened.map (·.name)).Nodup
  perm : a.listing.Perm a'.listing

/-- All entries that cannot be opened fail for one reason. -/
def FailsAlike (a : Archive) : Prop :=
  ∀ cause cause', .error cause ∈ a.listing → .error cause' ∈ a.listing → cause = cause'

end Archive

/-- Every archive that is read can be searched by name. -/
def Unzip.Lawful (unzip : Unzip) : Prop := ∀ bytes a, unzip bytes = .ok a → a.Lawful

namespace FileTree

/-- A file with these bytes is in the tree, at some depth. -/
inductive Holds : FileTree → ByteArray → Prop where
  | file : Holds (.file bytes) bytes
  | folder : (name, t) ∈ entries → Holds t bytes → Holds (.folder entries) bytes

mutual

/-- The same tree under a name, but folders and archives, at every depth, list their entries in other orders.
No folder lists a name twice. -/
inductive Relisted (unzip : Unzip) : String → FileTree → FileTree → Prop where
  | file : Relisted unzip name (.file bytes) (.file bytes)
  | archive : Path.kind name = .archive → unzip bytes = .ok a → unzip bytes' = .ok a' →
      a.Relisted a' → Relisted unzip name (.file bytes) (.file bytes')
  | folder : (entries.map (·.1)).Nodup → EachRelisted unzip entries between → between.Perm entries' →
      Relisted unzip name (.folder entries) (.folder entries')

/-- The same names in the same order, each with a tree that is relisted. -/
inductive EachRelisted (unzip : Unzip) : List (String × FileTree) → List (String × FileTree) → Prop where
  | nil : EachRelisted unzip [] []
  | cons : Relisted unzip name t t' → EachRelisted unzip rest rest' →
      EachRelisted unzip ((name, t) :: rest) ((name, t') :: rest')

end

variable {unzip : Unzip} {t t' : FileTree} {entries between entries' : List (String × FileTree)} {name : String}

theorem Relisted.of_file (relisted : Relisted unzip name (.file bytes) t') : ∃ bytes', t' = .file bytes' := by
  cases relisted <;> exact ⟨_, rfl⟩

theorem Relisted.of_folder (relisted : Relisted unzip name (.folder entries) t') :
    ∃ entries', t' = .folder entries' := by
  cases relisted
  exact ⟨_, rfl⟩

/-! ### Names -/

theorem EachRelisted.names (each : EachRelisted unzip entries between) :
    between.map (·.1) = entries.map (·.1) := by
  induction entries generalizing between with
  | nil =>
    cases each
    rfl
  | cons entry entries ih =>
    cases each with
    | cons _ more => rw [List.map_cons, List.map_cons, ih more]

theorem EachRelisted.lookup (each : EachRelisted unzip entries between) (name : String) :
    Option.Rel (Relisted unzip name) (entries.lookup name) (between.lookup name) := by
  induction entries generalizing between with
  | nil =>
    cases each
    exact .none
  | cons entry entries ih =>
    cases each with
    | cons first more =>
      rw [lookup_cons_if, lookup_cons_if]
      split
      next same => exact .some (same ▸ first)
      · exact ih more

/-- Where no name is listed twice the order does not matter to who looks for one. -/
theorem lookup_of_perm (distinct : (entries.map (·.1)).Nodup) (perm : entries.Perm entries')
    (name : String) : entries'.lookup name = entries.lookup name := by
  induction perm with
  | nil => rfl
  | cons entry _ ih =>
    rw [lookup_cons_if entry.1 entry.2, lookup_cons_if entry.1 entry.2, ih (List.nodup_cons.mp distinct).2]
  | swap x y entries =>
    have differ : y.1 ≠ x.1 := by
      intro same
      exact (List.nodup_cons.mp distinct).1 (by simp [same])
    simp only [lookup_cons_if x.1 x.2, lookup_cons_if y.1 y.2]
    by_cases here : name = x.1
    · rw [if_pos here, if_neg (here ▸ differ.symm), if_pos here]
    · rw [if_neg here, if_neg here]
  | trans first _ ih ih' =>
    rw [ih' ((first.map _).nodup_iff.mp distinct), ih distinct]

/-! ### Ways -/

/-- Both lead nowhere, or to trees that are the same but for their listing. -/
theorem alike_cases {found found' : Option FileTree} (alike : Option.Rel (Relisted unzip name) found found') :
    (found = none ∧ found' = none) ∨
      ∃ t t', found = some t ∧ found' = some t' ∧ Relisted unzip name t t' := by
  cases alike with
  | none => exact .inl ⟨rfl, rfl⟩
  | some relisted => exact .inr ⟨_, _, rfl, rfl, relisted⟩

theorem Relisted.child? (relisted : Relisted unzip name t t') (next : String) :
    Option.Rel (Relisted unzip next) (t.child? next) (t'.child? next) := by
  cases relisted with
  | file => exact .none
  | archive _ _ _ _ => exact .none
  | folder distinct each perm =>
    rw [← each.names] at distinct
    rw [FileTree.child?, FileTree.child?, lookup_of_perm distinct perm]
    exact each.lookup next

theorem Relisted.lookup_isSome (relisted : Relisted unzip name (.folder entries) (.folder entries'))
    (next : String) : (entries'.lookup next).isSome = (entries.lookup next).isSome := by
  have alike : Option.Rel (Relisted unzip next) (entries.lookup next) (entries'.lookup next) :=
    relisted.child? next
  rcases alike_cases alike with ⟨none, none'⟩ | ⟨_, _, found, found', _⟩
  · rw [none, none']
  · rw [found, found', Option.isSome_some, Option.isSome_some]

theorem Relisted.follow? (relisted : Relisted unzip name t t') (names : List String) :
    Option.Rel (Relisted unzip (names.getLastD name)) (t.follow? names) (t'.follow? names) := by
  induction names generalizing name t t' with
  | nil => exact .some relisted
  | cons next names ih =>
    rw [List.getLastD_cons]
    rcases alike_cases (relisted.child? next) with ⟨none, none'⟩ | ⟨_, _, found, found', inner⟩
    · simp only [FileTree.follow?, none, none']
      exact .none
    · simp only [FileTree.follow?, found, found']
      exact ih inner

theorem mem_of_lookup (found : entries.lookup name = some t) : (name, t) ∈ entries := by
  induction entries with
  | nil => cases found
  | cons entry entries ih =>
    rw [lookup_cons_if entry.1 entry.2] at found
    split at found
    next same =>
      obtain rfl := Option.some.inj found
      exact same ▸ List.mem_cons_self
    · exact List.mem_cons_of_mem _ (ih found)

/-- What a part of a tree holds, the tree holds. -/
theorem holds_of_follow? (names : List String) (found : t.follow? names = some t') (held : t'.Holds bytes) :
    t.Holds bytes := by
  induction names generalizing t with
  | nil =>
    cases found
    exact held
  | cons next names ih =>
    cases t with
    | file _ => cases found
    | folder entries =>
      simp only [FileTree.follow?, FileTree.child?] at found
      cases inside : entries.lookup next with
      | none =>
        rw [inside] at found
        cases found
      | some inner =>
        rw [inside] at found
        exact .folder (mem_of_lookup inside) (ih found)

/-- What is above a folder is a folder. -/
theorem dropLast_folder (place : List String) (found : t.follow? place = some (.folder entries)) :
    ∃ above, t.follow? place.dropLast = some (.folder above) := by
  induction place generalizing t with
  | nil => exact ⟨entries, found⟩
  | cons name place ih =>
    cases t with
    | file _ => cases found
    | folder outer =>
      cases place with
      | nil => exact ⟨outer, rfl⟩
      | cons next place =>
        simp only [FileTree.follow?] at found
        split at found
        · cases found
        next inner entered =>
          obtain ⟨above, still⟩ := ih found
          refine ⟨above, ?_⟩
          simp only [List.dropLast_cons_cons, FileTree.follow?, entered]
          exact still

end FileTree

/-- The same refusals, but the entries that fail are listed in other orders. -/
structure Faults.Relisted (f f' : Faults) : Prop where
  listing : f'.listing = f.listing
  entries : ∀ path, (f.entries path).Perm (f'.entries path)
  opening : f'.opening = f.opening
  reading : f'.reading = f.reading

namespace Disk

/-- The same files with their folders and archives relisted. -/
structure Relisted (unzip : Unzip) (d d' : Disk) : Prop where
  root : d.root.Relisted unzip "" d'.root
  here : d'.here = d.here
  faults : d.faults.Relisted d'.faults

/-- In every folder and every archive, all entries that cannot be listed fail for one reason. -/
structure FailsAlike (unzip : Unzip) (d : Disk) : Prop where
  folders : ∀ path, ∀ cause ∈ d.faults.entries path, ∀ cause' ∈ d.faults.entries path, cause = cause'
  archives : ∀ bytes, d.root.Holds bytes → ∀ a, unzip bytes = .ok a → a.FailsAlike

variable {unzip : Unzip} {d d' : Disk} {path : String}

theorem Relisted.walk (relisted : d.Relisted unzip d') (place way : List String) :
    d'.walk place way = d.walk place way := by
  induction way generalizing place with
  | nil => rfl
  | cons c way ih =>
    rcases FileTree.alike_cases (relisted.root.follow? place) with
      ⟨none, none'⟩ | ⟨t, t', found, found', inner⟩
    · simp only [Disk.walk, none, none']
    · simp only [Disk.walk, found, found', ih]
      cases inner with
      | file => rfl
      | archive _ _ _ _ => rfl
      | folder distinct each perm =>
        have same := FileTree.Relisted.lookup_isSome (.folder distinct each perm : FileTree.Relisted unzip "" _ _) c
        simp only [same]

/-- Only a folder is reached by components that stay where they are or go back. -/
theorem walk_to_file {place stop : List String} (way : List String) (c : String)
    (walked : d.walk place (way ++ [c]) = some stop) (file : d.root.follow? stop = some (.file bytes)) :
    ∃ folder, stop = folder ++ [c] := by
  rw [walk_append] at walked
  obtain ⟨folder, _, last⟩ := Option.bind_eq_some_iff.mp walked
  simp only [Disk.walk] at last
  split at last
  next entries found =>
    split at last
    · cases last
      rw [found] at file
      cases file
    · split at last
      · cases last
        obtain ⟨above, still⟩ := FileTree.dropLast_folder folder found
        rw [still] at file
        cases file
      · split at last
        · exact ⟨folder, (Option.some.inj last).symm⟩
        · cases last
  · cases last

theorem find?_cases {t : FileTree} (found : d.find? path = some t) : ∃ place,
    d.walk (d.startOf path) (Path.components path) = some place ∧ d.root.follow? place = some t := by
  unfold Disk.find? at found
  split at found
  · cases found
  · exact Option.bind_eq_some_iff.mp found

/-- A path leads to a file by the name of the file. -/
theorem kind_of_find? {place : List String} (walked : d.walk (d.startOf path) (Path.components path) = some place)
    (file : d.root.follow? place = some (.file bytes)) (archive : Path.kind (place.getLastD "") = .archive) :
    Path.kind path = .archive := by
  obtain ⟨way, c, last⟩ := (Path.components path).eq_nil_or_concat'.resolve_left (Path.components_ne_nil path)
  rw [last] at walked
  obtain ⟨folder, rfl⟩ := walk_to_file way c walked file
  rw [List.getLastD_concat] at archive
  exact Path.kind_of_last last archive

/-- A path leads nowhere on both, or to trees that are the same but for their listing. A file that is taken
as an archive has the path of one. -/
theorem Relisted.find? (relisted : d.Relisted unzip d') (path : String) :
    (d.find? path = none ∧ d'.find? path = none) ∨
      ∃ name t t', d.find? path = some t ∧ d'.find? path = some t' ∧ t.Relisted unzip name t' ∧
        ((∃ bytes, t = .file bytes) → Path.kind name = .archive → Path.kind path = .archive) := by
  have start : d'.startOf path = d.startOf path := by rw [startOf, startOf, relisted.here]
  simp only [Disk.find?, start, relisted.walk]
  split
  · exact .inl ⟨rfl, rfl⟩
  · cases walked : d.walk (d.startOf path) (Path.components path) with
    | none => exact .inl ⟨rfl, rfl⟩
    | some place =>
      rcases FileTree.alike_cases (relisted.root.follow? place) with
        ⟨none, none'⟩ | ⟨t, t', found, found', inner⟩
      · exact .inl ⟨none, none'⟩
      · refine .inr ⟨_, t, t', found, found', inner, ?_⟩
        rintro ⟨bytes, rfl⟩
        exact kind_of_find? walked found

theorem holds_of_find? {t : FileTree} (found : d.find? path = some t) (held : t.Holds bytes) :
    d.root.Holds bytes := by
  obtain ⟨place, _, there⟩ := find?_cases found
  exact FileTree.holds_of_follow? place there held

end Disk
end ProgramDependence
