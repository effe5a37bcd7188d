import ProgramDependence.Files.Tree

/-! Archives as their reader shows them. Entries are opened by their place, to see what there is, and
by their name, to be read. -/
namespace ProgramDependence

structure ArchiveEntry where
  name : String
  isFolder : Bool
  /-- All its bytes, if they can be unpacked. -/
  content : Except Cause ByteArray

structure Archive where
  count : Nat
  byIndex : Nat → Except Cause ArchiveEntry
  byName : String → Except Cause ArchiveEntry

/-- A reader of archives. -/
abbrev Unzip := ByteArray → Except Cause Archive

namespace Archive

def isDocument (name : String) : Bool := ['.', 'j', 's', 'o', 'n'].isSuffixOf name.toList

/-- The names of the documents, or the first entry that cannot be opened. -/
def documents (a : Archive) : Except Cause (List String) := do
  let entries ← (List.range a.count).mapM a.byIndex
  .ok ((entries.filter fun e => !e.isFolder && isDocument e.name).map (·.name))

/-- All bytes of the entry with a name. -/
def read (a : Archive) (name : String) : Except Cause ByteArray := do
  let entry ← a.byName name
  entry.content

end Archive
end ProgramDependence
