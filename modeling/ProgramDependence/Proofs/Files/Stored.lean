import Mathlib.Tactic.MkIffOfInductiveProp
import ProgramDependence.Proofs.Files.Zip
import ProgramDependence.Proofs.Text.Bytes

/-! Archives whose entries are stored as they are. Such an archive is read back: it lists what was put into
it, in the same order. -/
namespace ProgramDependence.Zip

/-! ### Layout -/

def littleEndian : Nat → Nat → List UInt8
  | 0, _ => []
  | width + 1, value => value.toUInt8 :: littleEndian width (value / 256)

/-- How many numbers a field of some bytes can hold. -/
def room : Nat → Nat
  | 0 => 1
  | width + 1 => 256 * room width

structure Stored where
  name : String
  content : ByteArray

namespace Stored

def nameBytes (s : Stored) : List UInt8 := s.name.toUTF8.data.toList

/-- What stands with the entry and in the directory alike. -/
def fields (s : Stored) : List UInt8 :=
  littleEndian 2 20 ++ littleEndian 2 2048 ++ littleEndian 2 0 ++ littleEndian 4 0 ++
    littleEndian 4 (checksum s.content).toNat ++ littleEndian 4 s.content.size ++
    littleEndian 4 s.content.size ++ littleEndian 2 s.nameBytes.length ++ littleEndian 2 0

def entry (s : Stored) : List UInt8 :=
  littleEndian 4 0x04034b50 ++ s.fields ++ s.nameBytes ++ s.content.data.toList

def record (s : Stored) (start : Nat) : List UInt8 :=
  littleEndian 4 0x02014b50 ++ littleEndian 2 20 ++ s.fields ++ littleEndian 10 0 ++
    littleEndian 4 start ++ s.nameBytes

/-- How the directory describes an entry. -/
def header (s : Stored) (start : Nat) : Header where
  name := s.name
  isEncrypted := false
  method := 0
  crc := (checksum s.content).toNat
  packedSize := s.content.size
  start := start

/-- The entry as it is opened. -/
def opened (s : Stored) : ArchiveEntry where
  name := s.name
  isFolder := s.name.toList.getLast?.any fun c => c = '/' || c = '\\'
  content := .ok s.content

end Stored

/-- One record for each entry, with the place where it begins. -/
def records : Nat → List Stored → List UInt8
  | _, [] => []
  | start, s :: rest => s.record start ++ records (start + s.entry.length) rest

def body (entries : List Stored) : List UInt8 := entries.flatMap Stored.entry

def ending (entries : List Stored) : List UInt8 :=
  littleEndian 4 0x06054b50 ++ littleEndian 4 0 ++ littleEndian 2 entries.length ++
    littleEndian 2 entries.length ++ littleEndian 4 (records 0 entries).length ++
    littleEndian 4 (body entries).length ++ littleEndian 2 0

/-- The archive of some entries, in their order. -/
def pack (entries : List Stored) : ByteArray :=
  ⟨(body entries ++ records 0 entries ++ ending entries).toArray⟩

/-- Names are distinct, and every number has room in its field. -/
@[mk_iff]
structure Packable (entries : List Stored) : Prop where
  distinct : (entries.map (·.name)).Nodup
  names : ∀ s ∈ entries, s.nameBytes.length < room 2
  contents : ∀ s ∈ entries, s.content.size < room 4
  count : entries.length < room 2
  body : (body entries).length < room 4
  records : (records 0 entries).length < room 4

instance (entries : List Stored) : Decidable (Packable entries) :=
  decidable_of_iff _ (packable_iff entries).symm

/-! ### Reading -/

variable {l block rest more extra : List UInt8} {start offset width value : Nat} {s : Stored}

theorem getElem?_toArray (l : List UInt8) (i : Nat) : (⟨l.toArray⟩ : ByteArray)[i]? = l[i]? := by
  by_cases inside : i < l.length
  · have size : i < (⟨l.toArray⟩ : ByteArray).size := by simpa [ByteArray.size] using inside
    rw [getElem?_pos _ i size, List.getElem?_eq_getElem inside]
    rfl
  · have size : ¬i < (⟨l.toArray⟩ : ByteArray).size := by simpa [ByteArray.size] using inside
    rw [getElem?_neg _ i size, List.getElem?_eq_none (not_lt.mp inside)]

/-- A number is read where it was written, if it has room. -/
theorem number_littleEndian (there : l.drop start = littleEndian width value ++ rest)
    (fits : value < room width) : number ⟨l.toArray⟩ start width = some value := by
  induction width generalizing start value with
  | zero =>
    obtain rfl : value = 0 := Nat.lt_one_iff.mp fits
    rfl
  | succ width ih =>
    have low : l[start]? = some value.toUInt8 := by
      rw [← List.head?_drop, there]
      rfl
    have high : l.drop (start + 1) = littleEndian width (value / 256) ++ rest := by
      rw [← List.drop_drop, there]
      rfl
    have smaller : value / 256 < room width := by
      rw [room] at fits
      omega
    have digit : value.toUInt8.toNat = value % 256 := by simp
    simp only [number, getElem?_toArray, low, ih high smaller, Option.bind_eq_bind, Option.bind_some, digit]
    congr 1
    omega

theorem number_field (there : l.drop start = block ++ rest)
    (field : block.drop offset = littleEndian width value ++ more) (inside : offset ≤ block.length)
    (fits : value < room width) : number ⟨l.toArray⟩ (start + offset) width = some value := by
  have below : l.drop (start + offset) = littleEndian width value ++ (more ++ rest) := by
    rw [← List.drop_drop, there, List.drop_append_of_le_length inside, field, List.append_assoc]
  exact number_littleEndian below fits

theorem slice_field (there : l.drop start = block ++ rest) (field : block.drop offset = more ++ extra)
    (inside : offset ≤ block.length) (filled : 0 < block.length) :
    slice ⟨l.toArray⟩ (start + offset) more.length = some ⟨more.toArray⟩ := by
  have below : l.drop (start + offset) = more ++ (extra ++ rest) := by
    rw [← List.drop_drop, there, List.drop_append_of_le_length inside, field, List.append_assoc]
  have outer := congrArg List.length there
  have inner := congrArg List.length field
  simp only [List.length_drop, List.length_append] at outer inner
  have enough : ¬(⟨l.toArray⟩ : ByteArray).size < start + offset + more.length := by
    simp only [ByteArray.size, List.size_toArray]
    omega
  rw [slice, if_neg enough]
  congr 1
  apply ByteArray.ext
  apply Array.ext'
  simp [ByteArray.data_extract, below]

theorem length_littleEndian (width value : Nat) : (littleEndian width value).length = width := by
  induction width generalizing value with
  | zero => rfl
  | succ width ih => rw [littleEndian, List.length_cons, ih]

theorem length_record (s : Stored) (start : Nat) : (s.record start).length = 46 + s.nameBytes.length := by
  simp only [Stored.record, Stored.fields, List.length_append, length_littleEndian]

theorem nameOf_nameBytes (s : Stored) : nameOf true ⟨s.nameBytes.toArray⟩ = s.name := by
  have whole : (⟨s.nameBytes.toArray⟩ : ByteArray) = s.name.toUTF8 := rfl
  rw [nameOf, whole, Text.fromUTF8?_toUTF8]
  rfl

/-- A record of the directory is read to the header that it was written for. -/
theorem headerAt_record {entryStart : Nat} (there : l.drop start = s.record entryStart ++ rest)
    (name : s.nameBytes.length < room 2) (content : s.content.size < room 4) (fits : entryStart < room 4) :
    headerAt ⟨l.toArray⟩ 0 start = some (s.header entryStart, start + (s.record entryStart).length) := by
  have long : 46 ≤ (s.record entryStart).length := by rw [length_record]; omega
  have field (offset width value : Nat) (more : List UInt8) (inside : offset ≤ 46)
      (found : (s.record entryStart).drop offset = littleEndian width value ++ more) (fits : value < room width) :
      number ⟨l.toArray⟩ (start + offset) width = some value :=
    number_field there found (inside.trans long) fits
  have signature := field 0 4 0x02014b50 _ (by decide) rfl (by decide)
  have flags := field 8 2 2048 _ (by decide) rfl (by decide)
  have method := field 10 2 0 _ (by decide) rfl (by decide)
  have crc := field 16 4 (checksum s.content).toNat _ (by decide) rfl (UInt32.toNat_lt _)
  have packedSize := field 20 4 s.content.size _ (by decide) rfl content
  have nameSize := field 28 2 s.nameBytes.length _ (by decide) rfl name
  have extraSize := field 30 2 0 _ (by decide) rfl (by decide)
  have commentSize := field 32 2 0 _ (by decide) rfl (by decide)
  have place := field 42 4 entryStart _ (by decide) rfl fits
  have bytes : slice ⟨l.toArray⟩ (start + 46) s.nameBytes.length = some ⟨s.nameBytes.toArray⟩ :=
    slice_field there (List.append_nil _).symm long (by omega)
  simp only [Nat.add_zero] at signature
  simp [headerAt, signature, flags, method, crc, packedSize, nameSize, extraSize, commentSize, place, bytes,
    nameOf_nameBytes, Stored.header, length_record, Nat.add_assoc]

theorem entryOf_entry (there : l.drop start = s.entry ++ rest) (name : s.nameBytes.length < room 2) :
    entryOf ⟨l.toArray⟩ (s.header start) = .ok s.opened := by
  have front : (littleEndian 4 0x04034b50 ++ s.fields ++ s.nameBytes).length = 30 + s.nameBytes.length := by
    simp only [Stored.fields, List.length_append, length_littleEndian]
  have length : s.entry.length = 30 + s.nameBytes.length + s.content.data.toList.length := by
    rw [Stored.entry, List.length_append, front]
  have signature : number ⟨l.toArray⟩ (start + 0) 4 = some 0x04034b50 :=
    number_field there rfl (Nat.zero_le _) (by decide)
  have nameSize : number ⟨l.toArray⟩ (start + 26) 2 = some s.nameBytes.length :=
    number_field there rfl (by omega) name
  have extraSize : number ⟨l.toArray⟩ (start + 28) 2 = some 0 :=
    number_field there rfl (by omega) (by decide)
  have after : s.entry.drop (30 + s.nameBytes.length) = s.content.data.toList ++ [] := by
    rw [Stored.entry, List.drop_left' front, List.append_nil]
  have bytes : slice ⟨l.toArray⟩ (start + (30 + s.nameBytes.length)) s.content.size = some s.content :=
    slice_field there after (by omega) (by omega)
  simp only [Nat.add_zero] at signature
  simp [entryOf, Stored.header, signature, nameSize, extraSize, Nat.add_assoc, bytes, unpack, Stored.opened]

theorem put_of_absent {h : Header} {read : List Header} (absent : h.name ∉ read.map (·.name)) :
    put h read = read ++ [h] := by
  induction read with
  | nil => rfl
  | cons other read ih =>
    simp only [List.map_cons, List.mem_cons, not_or] at absent
    rw [put, if_neg (Ne.symm absent.1), ih absent.2, List.cons_append]

/-- The headers of some entries, from a place on. -/
def headersOf : Nat → List Stored → List Header
  | _, [] => []
  | start, s :: rest => s.header start :: headersOf (start + s.entry.length) rest

theorem headers_records (entries : List Stored) {entryStart : Nat} {read : List Header}
    (there : l.drop start = records entryStart entries ++ rest)
    (names : ∀ s ∈ entries, s.nameBytes.length < room 2) (contents : ∀ s ∈ entries, s.content.size < room 4)
    (fits : entryStart + (body entries).length < room 4)
    (distinct : (read.map (·.name) ++ entries.map (·.name)).Nodup) :
    headers ⟨l.toArray⟩ 0 entries.length start read = some (read ++ headersOf entryStart entries) := by
  induction entries generalizing start entryStart read with
  | nil => simp [headers, headersOf]
  | cons s entries ih =>
    have length : (body (s :: entries)).length = s.entry.length + (body entries).length := by
      rw [body, List.flatMap_cons, List.length_append]
      rfl
    rw [records, List.append_assoc] at there
    have first := headerAt_record there (names s List.mem_cons_self) (contents s List.mem_cons_self) (by omega)
    have absent : (s.header entryStart).name ∉ read.map (·.name) := by
      intro member
      exact (List.nodup_append.mp distinct).2.2 _ member _ List.mem_cons_self rfl
    have below : l.drop (start + (s.record entryStart).length) =
        records (entryStart + s.entry.length) entries ++ rest := by
      rw [← List.drop_drop, there, List.drop_left]
    have others : ((read ++ [s.header entryStart]).map (·.name) ++ entries.map (·.name)).Nodup := by
      simpa [Stored.header] using distinct
    have later := ih below (fun s member => names s (List.mem_cons_of_mem _ member))
      (fun s member => contents s (List.mem_cons_of_mem _ member)) (by omega) others
    simp only [List.length_cons, headers, first, Option.bind_eq_bind, Option.bind_some, put_of_absent absent, later]
    simp [headersOf]

theorem entryOf_headersOf (entries : List Stored) {entryStart : Nat}
    (there : l.drop entryStart = body entries ++ rest) (names : ∀ s ∈ entries, s.nameBytes.length < room 2) :
    (headersOf entryStart entries).map (entryOf ⟨l.toArray⟩) = entries.map fun s => .ok s.opened := by
  induction entries generalizing entryStart with
  | nil => rfl
  | cons s entries ih =>
    rw [body, List.flatMap_cons, List.append_assoc] at there
    have below : l.drop (entryStart + s.entry.length) = body entries ++ rest := by
      rw [← List.drop_drop, there, List.drop_left]
      rfl
    rw [headersOf, List.map_cons, List.map_cons, entryOf_entry there (names s List.mem_cons_self),
      ih below fun s member => names s (List.mem_cons_of_mem _ member)]

theorem endAt_of_signature {bytes : ByteArray} {i : Nat} (signature : number bytes i 4 = some 0x06054b50) :
    endAt bytes i = some i := by
  cases i <;> simp [endAt, signature]

theorem directory_pack {entries : List Stored} (packable : Packable entries) :
    directory (pack entries) = some (headersOf 0 entries) := by
  have length : (ending entries).length = 22 := by simp only [ending, List.length_append, length_littleEndian]
  have size : (pack entries).size = (body entries).length + (records 0 entries).length + 22 := by
    simp only [pack, ByteArray.size, List.size_toArray, List.length_append, length]
  have last : (body entries ++ records 0 entries ++ ending entries).drop
      ((body entries).length + (records 0 entries).length) = ending entries ++ [] := by
    rw [List.drop_left' List.length_append, List.append_nil]
  have field (offset width value : Nat) (more : List UInt8) (inside : offset ≤ 22)
      (there : (ending entries).drop offset = littleEndian width value ++ more) (fits : value < room width) :
      number (pack entries) ((body entries).length + (records 0 entries).length + offset) width = some value :=
    number_field last there (inside.trans length.ge) fits
  have signature := field 0 4 0x06054b50 _ (by decide) rfl (by decide)
  have count := field 10 2 entries.length _ (by decide) rfl packable.count
  have directorySize := field 12 4 (records 0 entries).length _ (by decide) rfl packable.records
  have start := field 16 4 (body entries).length _ (by decide) rfl packable.body
  have there : (body entries ++ records 0 entries ++ ending entries).drop (body entries).length =
      records 0 entries ++ ending entries := by
    rw [List.append_assoc, List.drop_left]
  have read : headers (pack entries) 0 entries.length (body entries).length [] = some ([] ++ headersOf 0 entries) :=
    headers_records entries there packable.names packable.contents (by simpa using packable.body)
      (by simpa using packable.distinct)
  have enough : ¬(pack entries).size < 22 := by omega
  have finish : (pack entries).size - 22 = (body entries).length + (records 0 entries).length := by omega
  rw [directory, if_neg enough, finish]
  simp only [Nat.add_zero] at signature
  simp [endAt_of_signature signature, count, directorySize, start, Nat.add_comm (records 0 entries).length, read]

/-- What was packed is listed, in the same order. -/
theorem openArchive_pack {entries : List Stored} (packable : Packable entries) :
    ∃ a, openArchive (pack entries) = .ok a ∧ a.listing = entries.map fun s => .ok s.opened := by
  have there : (body entries ++ records 0 entries ++ ending entries).drop 0 =
      body entries ++ (records 0 entries ++ ending entries) := by
    rw [List.drop_zero, List.append_assoc]
  refine ⟨_, by rw [openArchive, directory_pack packable], ?_⟩
  rw [listing_archiveOf]
  exact entryOf_headersOf entries there packable.names

end ProgramDependence.Zip
