import ProgramDependence.Files.Tree
import ProgramDependence.Proofs.Files.Write
import ProgramDependence.Proofs.Text.Lines

/-! The kind of a file is that of its last name: a path to an archive, however it leads there, ends in the
name of the archive. -/
namespace ProgramDependence

namespace Path

variable {path folder name c : String} {way : List String}

theorem components_ne_nil (path : String) : components path ≠ [] := by
  rw [components, ne_eq, List.map_eq_nil_iff]
  exact Text.pieces_ne_nil path.toList

theorem components_of_mem (member : c ∈ components path) : components c = [c] := by
  obtain ⟨piece, cut, rfl⟩ := List.mem_map.mp member
  rw [components, String.toList_ofList, Text.pieces_eq_singleton (Text.notMem_of_mem_pieces cut)]
  rfl

theorem components_append_slash (front rest : String) :
    components (front ++ "/" ++ rest) = components front ++ components rest := by
  simp only [components, String.toList_append, ← List.map_append]
  rw [List.append_assoc, ← Text.pieces_append_sep]
  rfl

/-- A name under a folder brings its own components to the end of the path. -/
theorem components_join (folder name : String) : ∃ way, components (join folder name) = way ++ components name := by
  unfold join
  split
  next slash =>
    have ends : folder = String.ofList folder.toList.dropLast ++ "/" := by
      apply String.toList_inj.mp
      rw [String.toList_append, String.toList_ofList]
      exact (List.dropLast_append_getLast? '/' slash).symm
    rw [ends]
    exact ⟨_, components_append_slash _ name⟩
  · exact ⟨_, components_append_slash folder name⟩

/-- The last component that leads on is found wherever the path comes from. -/
theorem fileName?_of_append (ends : components path = way ++ components name)
    (found : fileName? name = some c) : fileName? path = some c := by
  unfold fileName? at found ⊢
  rw [ends, List.reverse_append, List.dropWhile_append]
  cases last : (components name).reverse.dropWhile fun c => c = "" || c = "." with
  | nil =>
    rw [last] at found
    cases found
  | cons first others =>
    rw [last] at found
    simpa using found

theorem kind_of_append (ends : components path = way ++ components name) (archive : kind name = .archive) :
    kind path = .archive := by
  cases found : fileName? name with
  | none =>
    have none : extension name = "" := by rw [extension, found]; rfl
    rw [kind, none] at archive
    cases archive
  | some c =>
    have same : extension path = extension name := by
      rw [extension, extension, fileName?_of_append ends found, found]
    rwa [kind, same]

theorem kind_join (archive : kind name = .archive) : kind (join folder name) = .archive := by
  obtain ⟨way, ends⟩ := components_join folder name
  exact kind_of_append ends archive

theorem kind_of_last (last : components path = way ++ [c]) (archive : kind c = .archive) :
    kind path = .archive := by
  have member : c ∈ components path := by simp [last]
  exact kind_of_append (components_of_mem member ▸ last) archive

end Path
end ProgramDependence
