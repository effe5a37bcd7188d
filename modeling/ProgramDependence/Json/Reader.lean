import ProgramDependence.Json.Value

/-! Reading JSON text. Arrays and objects may nest up to a given depth; a strict reader also
refuses lone surrogates and numbers too large for a double. A tolerant reader, used for
entries that nobody looks at, checks only that the text is well formed. -/
namespace ProgramDependence.Json

abbrev Reader (α : Type) := List Char → Option (α × List Char)

def isSpace (c : Char) : Bool := c = ' ' || c = '\t' || c = '\n' || c = '\r'

def skipSpace (cs : List Char) : List Char := cs.dropWhile isSpace

/-! ### Strings -/

def hexDigit? (c : Char) : Option Nat :=
  if '0' ≤ c ∧ c ≤ '9' then some (c.toNat - 48)
  else if 'a' ≤ c ∧ c ≤ 'f' then some (c.toNat - 87)
  else if 'A' ≤ c ∧ c ≤ 'F' then some (c.toNat - 55)
  else none

/-- The UTF-16 unit that four hexadecimal digits spell. -/
def unit? (a b c d : Char) : Option Nat := do
  let a ← hexDigit? a
  let b ← hexDigit? b
  let c ← hexDigit? c
  let d ← hexDigit? d
  some (((a * 16 + b) * 16 + c) * 16 + d)

def isLead (unit : Nat) : Bool := 0xD800 ≤ unit && unit < 0xDC00

def isTrail (unit : Nat) : Bool := 0xDC00 ≤ unit && unit < 0xE000

def pairUnits (lead trail : Nat) : Char :=
  Char.ofNat (0x10000 + (lead - 0xD800) * 0x400 + (trail - 0xDC00))

/-- The character that a one-letter escape stands for. -/
def escape? (c : Char) : Option Char :=
  if c = '"' then some '"'
  else if c = '\\' then some '\\'
  else if c = '/' then some '/'
  else if c = 'b' then some '\x08'
  else if c = 'f' then some '\x0c'
  else if c = 'n' then some '\n'
  else if c = 'r' then some '\r'
  else if c = 't' then some '\t'
  else none

/-- A part of a string as written: a character, or a UTF-16 unit given by number. -/
inductive Piece where
  | char (c : Char)
  | unit (n : Nat)

def consPiece (p : Piece) (read : Option (List Piece × List Char)) :
    Option (List Piece × List Char) :=
  read.map fun (ps, rest) => (p :: ps, rest)

/-- What follows the opening quote of a string, up to its closing quote. -/
def pieces : Reader (List Piece)
  | [] => none
  | c :: rest =>
    if c = '"' then some ([], rest)
    else if c = '\\' then
      match rest with
      | 'u' :: a :: b :: c :: d :: rest =>
        match unit? a b c d with
        | none => none
        | some n => consPiece (.unit n) (pieces rest)
      | e :: rest =>
        match escape? e with
        | none => none
        | some c => consPiece (.char c) (pieces rest)
      | [] => none
    else if c.toNat < 0x20 then none
    else consPiece (.char c) (pieces rest)

/-- The characters of a string. A leading surrogate, once met, must be followed by a trailing
one, and a trailing one stands nowhere else. -/
def joinPieces : Option Nat → List Piece → Option (List Char)
  | none, [] => some []
  | none, .char c :: ps => (joinPieces none ps).map (c :: ·)
  | none, .unit n :: ps =>
    if isLead n then joinPieces (some n) ps
    else if isTrail n then none
    else (joinPieces none ps).map (Char.ofNat n :: ·)
  | some lead, .unit n :: ps =>
    if isTrail n then (joinPieces none ps).map (pairUnits lead n :: ·) else none
  | some _, _ => none

/-- A tolerant reader keeps nothing of a string but its length. -/
def stringTail (strict : Bool) : Reader (List Char) := fun cs =>
  match pieces cs with
  | none => none
  | some (ps, rest) =>
    if strict then (joinPieces none ps).map fun s => (s, rest)
    else some (ps.map fun _ => '?', rest)

/-! ### Numbers -/

/-- A number as written: digits before and after the point, and the power of ten. -/
structure Numeral where
  negative : Bool
  whole : List Char
  fraction : Option (List Char)
  exponent : Option Int

def natOfDigits (digits : List Char) : Nat :=
  digits.foldl (fun n d => n * 10 + (d.toNat - 48)) 0

def digits (cs : List Char) : List Char × List Char :=
  (cs.takeWhile Char.isDigit, cs.dropWhile Char.isDigit)

def fractionPart : Reader (Option (List Char))
  | '.' :: rest =>
    let (ds, rest) := digits rest
    if ds.isEmpty then none else some (some ds, rest)
  | cs => some (none, cs)

def exponentDigits (negative : Bool) (cs : List Char) : Option (Option Int × List Char) :=
  let (ds, rest) := digits cs
  if ds.isEmpty then none
  else some (some (if negative then -(natOfDigits ds : Int) else natOfDigits ds), rest)

def exponentSigned : Reader (Option Int)
  | '+' :: rest => exponentDigits false rest
  | '-' :: rest => exponentDigits true rest
  | rest => exponentDigits false rest

def exponentPart : Reader (Option Int)
  | c :: rest => if c = 'e' || c = 'E' then exponentSigned rest else some (none, c :: rest)
  | [] => some (none, [])

def unsignedNumeral (negative : Bool) (cs : List Char) : Option (Numeral × List Char) := do
  let (whole, rest) := digits cs
  if whole.isEmpty || (whole.head? = some '0' && whole.length > 1) then none
  else
    let (fraction, rest) ← fractionPart rest
    let (exponent, rest) ← exponentPart rest
    some (⟨negative, whole, fraction, exponent⟩, rest)

def numeral : Reader Numeral
  | '-' :: rest => unsignedNumeral true rest
  | rest => unsignedNumeral false rest

/-- A positive integer rounded to 53 binary digits, a tie going to the even neighbour. -/
def roundSignificand (n : Nat) : Nat :=
  if n.log2 < 53 then n
  else
    let drop := n.log2 - 52
    let kept := n >>> drop
    let rest := n % (1 <<< drop)
    let half := 1 <<< (drop - 1)
    if half < rest ∨ (rest = half ∧ kept % 2 = 1) then (kept + 1) <<< drop else kept <<< drop

/-- Digits are taken up while the number they spell fits a 64-bit word. Gives that number and
how many digits are left over. -/
def takeUp (n : Nat) : List Char → Nat × Nat
  | [] => (n, 0)
  | d :: ds =>
    let next := n * 10 + (d.toNat - 48)
    if next < UInt64.size then takeUp next ds else (n, ds.length + 1)

/-- Whether a number is past the largest double. Its leading digits and its power of ten are
rounded on their own before they are multiplied. -/
def Numeral.overflows (n : Numeral) : Bool :=
  let fraction := n.fraction.getD []
  let (whole, beyond) := takeUp 0 n.whole
  let (significand, unread) := takeUp whole fraction
  let power : Int := n.exponent.getD 0 + beyond - (fraction.length - unread : Nat)
  significand ≠ 0 && 0 ≤ power && (308 < power ||
    1 <<< 1024 ≤
      roundSignificand (roundSignificand significand * roundSignificand (Nat.pow 10 power.toNat)))

/-- An integer is a number written without point and exponent that fits a word, signed or
unsigned. Minus zero is not one. -/
def Numeral.integer? (n : Numeral) : Option Int :=
  if n.fraction.isSome || n.exponent.isSome then none
  else
    let size := natOfDigits n.whole
    if n.negative then
      if 0 < size ∧ size ≤ 0x8000000000000000 then some (-(size : Int)) else none
    else if size < UInt64.size then some size else none

def Numeral.toJson (strict : Bool) (n : Numeral) : Option Json :=
  match n.integer? with
  | some i => some (.int i)
  | none => if strict && n.overflows then none else some .real

def number (strict : Bool) : Reader Json := fun cs => do
  let (n, rest) ← numeral cs
  let j ← n.toJson strict
  some (j, rest)

/-! ### Values -/

/-- One or more items with commas between them and `close` after the last. A comma is always
followed by another item. Each item takes at least one character, so the length of the text
is fuel enough. -/
def sequence (close : Char) (item : Reader α) : Nat → Reader (List α)
  | 0, _ => none
  | fuel + 1, cs =>
    match item cs with
    | none => none
    | some (x, rest) =>
      match skipSpace rest with
      | [] => none
      | c :: rest =>
        if c = ',' then
          (sequence close item fuel rest).map fun (xs, rest) => (x :: xs, rest)
        else if c = close then some ([x], rest)
        else none

/-- Items up to `close`, possibly none. -/
def sequenceOrEmpty (close : Char) (item : Reader α) : Reader (List α) := fun cs =>
  match skipSpace cs with
  | [] => none
  | c :: rest => if c = close then some ([], rest) else sequence close item cs.length cs

/-- A key, a colon and the value read for that key. -/
def entry (strictKey : Bool) (value : String → Reader α) : Reader (String × α) := fun cs =>
  match skipSpace cs with
  | '"' :: rest =>
    match stringTail strictKey rest with
    | none => none
    | some (key, rest) =>
      match skipSpace rest with
      | ':' :: rest =>
        let key := String.ofList key
        (value key rest).map fun (x, rest) => ((key, x), rest)
      | _ => none
  | _ => none

def literal (word : List Char) (j : Json) : Reader Json := fun cs =>
  if word.isPrefixOf cs then some (j, cs.drop word.length) else none

/-- A value in which arrays and objects nest at most `depth` deep. -/
def value (strict : Bool) : Nat → Reader Json
  | depth, cs =>
    match skipSpace cs with
    | [] => none
    | c :: rest =>
      if c = '"' then
        (stringTail strict rest).map fun (s, rest) => (.str (String.ofList s), rest)
      else if c = '[' then
        match depth with
        | 0 => none
        | depth + 1 =>
          (sequenceOrEmpty ']' (value strict depth) rest).map fun (xs, rest) => (.arr xs, rest)
      else if c = '\x7b' then
        match depth with
        | 0 => none
        | depth + 1 =>
          (sequenceOrEmpty '\x7d' (entry strict fun _ => value strict depth) rest).map
            fun (es, rest) => (.obj es, rest)
      else if c = 'n' then literal ['u', 'l', 'l'] .null rest
      else if c = 't' then literal ['r', 'u', 'e'] (.bool true) rest
      else if c = 'f' then literal ['a', 'l', 's', 'e'] (.bool false) rest
      else number strict (c :: rest)

/-- Arrays and objects may nest this deep. -/
def depthLimit : Nat := 127

/-- The whole text is one thing, with nothing but space after it. -/
def whole (read : Reader α) (cs : List Char) : Option α :=
  match read cs with
  | none => none
  | some (x, rest) => if (skipSpace rest).isEmpty then some x else none

def read? (text : List Char) : Option Json := whole (value true depthLimit) text

/-- An object of which only the entries named in `wanted` are looked at. The others are read
tolerantly, to any depth, and dropped. -/
def selectedEntries (wanted : List String) : Reader (List (String × Json)) := fun cs =>
  match skipSpace cs with
  | c :: rest =>
    if c = '\x7b' then
      (sequenceOrEmpty '\x7d' (entry true fun key cs =>
          if wanted.contains key then value true (depthLimit - 1) cs
          else value false cs.length cs) rest).map
        fun (es, rest) => (es.filter fun (key, _) => wanted.contains key, rest)
    else none
  | [] => none

end ProgramDependence.Json
