import Mathlib.Data.List.Nodup
import ProgramDependence.Files.Zip
import ProgramDependence.Proofs.Files.Listing

/-! The directory of an archive has no two entries of one name, so the entry that is found by a name is the
one that is listed with it. -/
namespace ProgramDependence.Zip

variable {h : Header} {l : List Header} {bytes : ByteArray}

theorem mem_names_put {name : String} :
    name ∈ (put h l).map (·.name) ↔ name = h.name ∨ name ∈ l.map (·.name) := by
  induction l with
  | nil => simp [put]
  | cons other l ih =>
    simp only [put]
    split
    next same => simp [same]
    next =>
      rw [List.map_cons, List.mem_cons, ih, List.map_cons, List.mem_cons]
      exact or_left_comm

theorem put_distinct (distinct : (l.map (·.name)).Nodup) : ((put h l).map (·.name)).Nodup := by
  induction l with
  | nil => simp [put]
  | cons other l ih =>
    obtain ⟨absent, rest⟩ := List.nodup_cons.mp distinct
    simp only [put]
    split
    next same =>
      dsimp only at absent
      rw [same] at absent
      exact List.nodup_cons.mpr ⟨absent, rest⟩
    next differs =>
      refine List.nodup_cons.mpr ⟨fun member => ?_, ih rest⟩
      rcases mem_names_put.mp member with same | listed
      · exact differs same
      · exact absent listed

theorem headers_distinct (base n start : Nat) {read : List Header} (distinct : (read.map (·.name)).Nodup)
    (done : headers bytes base n start read = some l) : (l.map (·.name)).Nodup := by
  induction n generalizing start read with
  | zero =>
    cases done
    exact distinct
  | succ n ih =>
    simp only [headers, Option.bind_eq_bind, Option.bind_eq_some_iff] at done
    obtain ⟨⟨header, next⟩, _, more⟩ := done
    exact ih next (put_distinct distinct) more

theorem directory_distinct (read : directory bytes = some l) : (l.map (·.name)).Nodup := by
  unfold directory at read
  split at read
  · cases read
  · simp only [Option.bind_eq_bind, Option.bind_eq_some_iff] at read
    obtain ⟨finish, _, count, _, size, _, start, _, read⟩ := read
    split at read
    · cases read
    · have none : (([] : List Header).map (·.name)).Nodup := List.nodup_nil
      exact headers_distinct _ _ _ none read

theorem entryOf_name {e : ArchiveEntry} (opened : entryOf bytes h = .ok e) : e.name = h.name := by
  unfold entryOf at opened
  split at opened
  · cases opened
  · split at opened
    · cases opened
    · split at opened
      · cases opened
        rfl
      · cases opened

theorem find?_of_distinct (distinct : (l.map (·.name)).Nodup) (member : h ∈ l) :
    l.find? (fun other => other.name = h.name) = some h := by
  have exists_found : (l.find? fun other => other.name = h.name).isSome := by
    rw [List.find?_isSome]
    exact ⟨h, member, decide_eq_true rfl⟩
  obtain ⟨found, there⟩ := Option.isSome_iff_exists.mp exists_found
  have same : found.name = h.name := by simpa using List.find?_some there
  rw [there, List.inj_on_of_nodup_map distinct (List.mem_of_find?_eq_some there) member same]

theorem listing_archiveOf (bytes : ByteArray) (l : List Header) :
    (archiveOf bytes l.toArray).listing = l.map (entryOf bytes) := by
  apply List.ext_getElem
  · simp [Archive.listing, archiveOf]
  · intro i bound bound'
    have inside : i < l.length := by simpa using bound'
    simp [Archive.listing, archiveOf, inside]

theorem openArchive_lawful : Unzip.Lawful openArchive := by
  intro bytes a opened _ e member
  unfold openArchive at opened
  split at opened
  next l read =>
    obtain rfl := Except.ok.inj opened
    rw [Archive.opened, listing_archiveOf, List.mem_filterMap] at member
    obtain ⟨result, listed, done⟩ := member
    obtain ⟨h, inDirectory, rfl⟩ := List.mem_map.mp listed
    have entry : entryOf bytes h = .ok e := by
      cases result : entryOf bytes h with
      | error cause =>
        rw [result] at done
        cases done
      | ok e' =>
        rw [result] at done
        rw [Option.some.inj done]
    have found := find?_of_distinct (directory_distinct read) inDirectory
    simp [archiveOf, entryOf_name entry, found, entry]
  · cases opened

end ProgramDependence.Zip
