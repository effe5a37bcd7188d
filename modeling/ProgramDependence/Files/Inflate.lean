/-! Unpacking of deflated bytes. Bits are taken from the low end of each byte. -/
namespace ProgramDependence.Inflate

/-- Reads from bytes, at a place that is counted in bits. -/
abbrev Bits := ReaderT ByteArray (StateT Nat Option)

def bit : Bits Nat := do
  let place ← modifyGet fun place => (place, place + 1)
  match (← read)[place / 8]? with
  | some byte => pure ((byte.toNat >>> (place % 8)) % 2)
  | none => failure

/-- A number whose low bits come first. -/
def number : Nat → Bits Nat
  | 0 => pure 0
  | n + 1 => do
    let low ← bit
    let high ← number n
    pure (low + 2 * high)

/-! ### Codes -/

/-- A canonical prefix code: how many words there are of each length from 1 on, and what they
mean, the short ones first. -/
structure Code where
  counts : List Nat
  symbols : Array Nat

def longest : Nat := 15

/-- The code in which symbol `k` has a word of the `k`-th length. Length 0 means that it has
none. -/
def Code.ofLengths (lengths : List Nat) : Code where
  counts := (List.range longest).map fun n => lengths.count (n + 1)
  symbols := ((List.range longest).flatMap fun n =>
    (lengths.zipIdx.filter fun (length, _) => length = n + 1).map (·.2)).toArray

/-- Reads on until a word is complete. Among the words of the current length, `first` is the lowest
one and `index` the place of its meaning. -/
def Code.complete (symbols : Array Nat) (word first index : Nat) : List Nat → Bits Nat
  | [] => failure
  | count :: longer => do
    let word := 2 * word + (← bit)
    if word < first + count then
      match symbols[index + (word - first)]? with
      | some symbol => pure symbol
      | none => failure
    else Code.complete symbols word (2 * (first + count)) (index + count) longer

def Code.next (c : Code) : Bits Nat := Code.complete c.symbols 0 0 0 c.counts

def fixedLiterals : Code :=
  .ofLengths (List.replicate 144 8 ++ List.replicate 112 9 ++ List.replicate 24 7 ++
    List.replicate 8 8)

def fixedDistances : Code := .ofLengths (List.replicate 30 5)

/-! ### Copies -/

/-- Lowest value and number of further bits for each symbol. -/
abbrev Scale := Array (Nat × Nat)

def lengths : Scale := #[(3, 0), (4, 0), (5, 0), (6, 0), (7, 0), (8, 0), (9, 0), (10, 0), (11, 1),
  (13, 1), (15, 1), (17, 1), (19, 2), (23, 2), (27, 2), (31, 2), (35, 3), (43, 3), (51, 3), (59, 3),
  (67, 4), (83, 4), (99, 4), (115, 4), (131, 5), (163, 5), (195, 5), (227, 5), (258, 0)]

def distances : Scale := #[(1, 0), (2, 0), (3, 0), (4, 0), (5, 1), (7, 1), (9, 2), (13, 2), (17, 3),
  (25, 3), (33, 4), (49, 4), (65, 5), (97, 5), (129, 6), (193, 6), (257, 7), (385, 7), (513, 8),
  (769, 8), (1025, 9), (1537, 9), (2049, 10), (3073, 10), (4097, 11), (6145, 11), (8193, 12),
  (12289, 12), (16385, 13), (24577, 13)]

def onScale (s : Scale) (symbol : Nat) : Bits Nat :=
  match s[symbol]? with
  | none => failure
  | some (lowest, width) => do
    let more ← number width
    pure (lowest + more)

/-- Repeats what stands `distance` bytes back, which may run into the copy itself. -/
def copy (distance : Nat) : Nat → ByteArray → ByteArray
  | 0, out => out
  | n + 1, out => copy distance n (out.push (out.get! (out.size - distance)))

/-- One symbol after the other, up to the end of the block. -/
def symbols (literal distance : Code) : Nat → ByteArray → Bits ByteArray
  | 0, _ => failure
  | fuel + 1, out => do
    let symbol ← literal.next
    if symbol < 256 then symbols literal distance fuel (out.push symbol.toUInt8)
    else if symbol = 256 then pure out
    else
      let length ← onScale lengths (symbol - 257)
      let back ← onScale distances (← distance.next)
      if out.size < back then failure
      else symbols literal distance fuel (copy back length out)

/-! ### Blocks -/

/-- The order in which the lengths of the code for lengths are given. -/
def lengthOrder : List Nat := [16, 17, 18, 0, 8, 7, 9, 6, 10, 5, 11, 4, 12, 3, 13, 2, 14, 1, 15]

/-- Lengths of words, in reverse. Symbols from 16 on repeat the length before them or no word. -/
def readLengths (c : Code) (total : Nat) : Nat → List Nat → Bits (List Nat)
  | 0, _ => failure
  | fuel + 1, read => do
    if read.length = total then pure read
    else if total < read.length then failure
    else
      match ← c.next with
      | 16 =>
        match read with
        | [] => failure
        | last :: _ =>
          let times ← number 2
          readLengths c total fuel (List.replicate (times + 3) last ++ read)
      | 17 =>
        let times ← number 3
        readLengths c total fuel (List.replicate (times + 3) 0 ++ read)
      | 18 =>
        let times ← number 7
        readLengths c total fuel (List.replicate (times + 11) 0 ++ read)
      | length => readLengths c total fuel (length :: read)

/-- The codes for literals and distances that a block brings along. -/
def ownCodes : Bits (Code × Code) := do
  let literals := (← number 5) + 257
  let distances := (← number 5) + 1
  let given := (← number 4) + 4
  let widths ← (lengthOrder.take given).mapM fun symbol => do
    let width ← number 3
    pure (symbol, width)
  let code := Code.ofLengths ((List.range lengthOrder.length).map fun symbol =>
    (widths.lookup symbol).getD 0)
  let read ← readLengths code (literals + distances) (literals + distances + 1) []
  let all := read.reverse
  pure (.ofLengths (all.take literals), .ofLengths (all.drop literals))

/-- Bytes that are stored as they are, from the next whole byte on. -/
def stored (out : ByteArray) : Bits ByteArray := do
  modify fun place => (place + 7) / 8 * 8
  let length ← number 16
  let complement ← number 16
  let start := (← get) / 8
  if length + complement ≠ 65535 || (← read).size < start + length then failure
  else
    set ((start + length) * 8)
    pure (out ++ (← read).extract start (start + length))

def blocks (bits : Nat) : Nat → ByteArray → Bits ByteArray
  | 0, _ => failure
  | fuel + 1, out => do
    let last ← bit
    let out ← match ← number 2 with
      | 0 => stored out
      | 1 => symbols fixedLiterals fixedDistances bits out
      | 2 => do
        let (literal, distance) ← ownCodes
        symbols literal distance bits out
      | _ => failure
    if last = 1 then pure out else blocks bits fuel out

end Inflate

/-- All that some bytes unpack to. Every symbol takes a bit at least, and so does every block. -/
def inflate (bytes : ByteArray) : Option ByteArray :=
  let bits := 8 * bytes.size + 1
  ((Inflate.blocks bits bits .empty).run bytes).run' 0

end ProgramDependence
