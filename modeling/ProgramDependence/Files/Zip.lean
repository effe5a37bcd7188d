import ProgramDependence.Files.Archive
import ProgramDependence.Files.Inflate

/-! Archives in the zip format. A directory at the end of the file says where each entry begins.
Entries are stored or deflated; archives that need more than 32 bits for a place are not read. -/
namespace ProgramDependence.Zip

/-! ### Bytes -/

/-- A number of some bytes, the low ones first. -/
def number (bytes : ByteArray) (start : Nat) : Nat → Option Nat
  | 0 => some 0
  | n + 1 => do
    let low ← bytes[start]?
    let high ← number bytes (start + 1) n
    some (low.toNat + 256 * high)

def slice (bytes : ByteArray) (start size : Nat) : Option ByteArray :=
  if bytes.size < start + size then none else some (bytes.extract start (start + size))

/-- One bit of the division by the polynomial of CRC-32. -/
def shift (crc : UInt32) : UInt32 := if crc &&& 1 = 1 then (crc >>> 1) ^^^ 0xedb88320 else crc >>> 1

def checksum (bytes : ByteArray) : UInt32 :=
  bytes.foldl (fun crc byte => Nat.repeat shift 8 (crc ^^^ byte.toUInt32)) 0xffffffff ^^^ 0xffffffff

/-! ### The directory -/

/-- An entry of the directory. -/
structure Header where
  name : String
  isEncrypted : Bool
  method : Nat
  crc : Nat
  packedSize : Nat
  /-- Where the entry begins. -/
  start : Nat

/-- The characters from 128 on in the code page of names that are not UTF-8. -/
def codePage : Array Char :=
  ("ÇüéâäàåçêëèïîìÄÅÉæÆôöòûùÿÖÜ¢£¥₧ƒáíóúñÑªº¿⌐¬½¼¡«»░▒▓│┤╡╢╖╕╣║╗╝╜╛┐" ++
    "└┴┬├─┼╞╟╚╔╩╦╠═╬╧╨╤╥╙╘╒╓╫╪┘┌█▄▌▐▀αßΓπΣσµτΦΘΩδ∞φε∩≡±≥≤⌠⌡÷≈°∙·√ⁿ²■" ++ " ").toList.toArray

def nameOf (isUtf8 : Bool) (bytes : ByteArray) : String :=
  let byCodePage := String.ofList (bytes.toList.map fun byte =>
    if byte < 128 then Char.ofNat byte.toNat else codePage.getD (byte.toNat - 128) ' ')
  if isUtf8 then (String.fromUTF8? bytes).getD byCodePage else byCodePage

/-- The entry at a place of the directory, and where the next one is. Places are counted from
`base`. -/
def headerAt (bytes : ByteArray) (base start : Nat) : Option (Header × Nat) := do
  let field (offset width : Nat) := number bytes (start + offset) width
  if (← field 0 4) ≠ 0x02014b50 then none
  else
    let flags ← field 8 2
    let nameSize ← field 28 2
    let name ← slice bytes (start + 46) nameSize
    let header : Header := {
      name := nameOf (flags &&& 2048 ≠ 0) name
      isEncrypted := flags &&& 1 ≠ 0
      method := ← field 10 2
      crc := ← field 16 4
      packedSize := ← field 20 4
      start := base + (← field 42 4) }
    some (header, start + 46 + nameSize + (← field 30 2) + (← field 32 2))

/-- A later entry takes the place of one with the same name. -/
def put (h : Header) : List Header → List Header
  | [] => [h]
  | other :: rest => if other.name = h.name then h :: rest else other :: put h rest

def headers (bytes : ByteArray) (base : Nat) : Nat → Nat → List Header → Option (List Header)
  | 0, _, read => some read
  | n + 1, start, read => do
    let (header, next) ← headerAt bytes base start
    headers bytes base n next (put header read)

/-- The last place, up to the given one, where the directory is described. -/
def endAt (bytes : ByteArray) : Nat → Option Nat
  | 0 => if number bytes 0 4 = some 0x06054b50 then some 0 else none
  | i + 1 => if number bytes (i + 1) 4 = some 0x06054b50 then some (i + 1) else endAt bytes i

/-- What stands before the archive in its file is not counted in the places that it gives. -/
def directory (bytes : ByteArray) : Option (List Header) := do
  if bytes.size < 22 then none
  else
    let finish ← endAt bytes (bytes.size - 22)
    let count ← number bytes (finish + 10) 2
    let size ← number bytes (finish + 12) 4
    let start ← number bytes (finish + 16) 4
    if finish < size + start then none
    else headers bytes (finish - (size + start)) count (finish - size) []

/-! ### Entries -/

def unpack (h : Header) (packed : ByteArray) : Except Cause ByteArray :=
  match if h.method = 0 then some packed else inflate packed with
  | none => .error (.report "corrupt deflate stream")
  | some bytes =>
    if (checksum bytes).toNat = h.crc then .ok bytes else .error (.report "Invalid checksum")

/-- The entry that a header leads to. -/
def entryOf (bytes : ByteArray) (h : Header) : Except Cause ArchiveEntry :=
  if h.isEncrypted then
    .error (.report "unsupported Zip archive: Password required to decrypt file")
  else if h.method ≠ 0 && h.method ≠ 8 then
    .error (.report "unsupported Zip archive: Compression method not supported")
  else
    match number bytes h.start 4, number bytes (h.start + 26) 2, number bytes (h.start + 28) 2 with
    | some 0x04034b50, some nameSize, some extraSize =>
      .ok {
        name := h.name
        isFolder := h.name.toList.getLast?.any fun c => c = '/' || c = '\\'
        content := match slice bytes (h.start + 30 + nameSize + extraSize) h.packedSize with
          | none => .error (.report "failed to fill whole buffer")
          | some packed => unpack h packed }
    | _, _, _ => .error (.report "invalid Zip archive: Invalid local file header")

/-- The entries under the headers of a directory. -/
def archiveOf (bytes : ByteArray) (directory : Array Header) : Archive where
  count := directory.size
  byIndex i :=
    match directory[i]? with
    | some h => entryOf bytes h
    | none => .error (.report "specified file not found in archive")
  byName name :=
    match directory.find? fun h => h.name = name with
    | some h => entryOf bytes h
    | none => .error (.report "specified file not found in archive")

def openArchive : Unzip := fun bytes =>
  match directory bytes with
  | some headers => .ok (archiveOf bytes headers.toArray)
  | none => .error (.report "invalid Zip archive: Could not find EOCD")

end ProgramDependence.Zip
