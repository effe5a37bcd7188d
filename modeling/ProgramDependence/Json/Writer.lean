import ProgramDependence.Json.Value

/-! Writing JSON without any space. -/
namespace ProgramDependence.Json

def hexChar (n : Nat) : Char := Nat.digitChar n

/-- Quotes, backslashes and control characters below U+0020 are escaped; all else stands as it
is. -/
def escapeChar (c : Char) : List Char :=
  if c = '"' then ['\\', '"']
  else if c = '\\' then ['\\', '\\']
  else if c = '\x08' then ['\\', 'b']
  else if c = '\x0c' then ['\\', 'f']
  else if c = '\n' then ['\\', 'n']
  else if c = '\r' then ['\\', 'r']
  else if c = '\t' then ['\\', 't']
  else if c.toNat < 0x20 then
    ['\\', 'u', '0', '0', hexChar (c.toNat / 16), hexChar (c.toNat % 16)]
  else [c]

def writeString (s : String) : List Char := '"' :: s.toList.flatMap escapeChar ++ ['"']

def writeInt : Int → List Char
  | .ofNat n => Nat.toDigits 10 n
  | .negSucc n => '-' :: Nat.toDigits 10 (n + 1)

mutual

def write : Json → List Char
  | .null => ['n', 'u', 'l', 'l']
  | .bool true => ['t', 'r', 'u', 'e']
  | .bool false => ['f', 'a', 'l', 's', 'e']
  | .int n => writeInt n
  | .real => ['0', '.', '0']
  | .str s => writeString s
  | .arr [] => ['[', ']']
  | .arr (x :: xs) => '[' :: write x ++ writeItems xs ++ [']']
  | .obj [] => ['\x7b', '\x7d']
  | .obj ((k, x) :: es) => '\x7b' :: writeString k ++ ':' :: write x ++ writeEntries es ++ ['\x7d']

def writeItems : List Json → List Char
  | [] => []
  | x :: xs => ',' :: write x ++ writeItems xs

def writeEntries : List (String × Json) → List Char
  | [] => []
  | (k, x) :: es => ',' :: writeString k ++ ':' :: write x ++ writeEntries es

end

end ProgramDependence.Json
