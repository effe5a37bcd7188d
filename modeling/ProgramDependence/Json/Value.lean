/-! JSON values. Objects keep their entries in order, repetitions included, because what a
repeated key means is decided by whoever reads the object. -/
namespace ProgramDependence

inductive Json where
  | null
  | bool (value : Bool)
  | int (value : Int)
  /-- A number with a fraction, an exponent or more digits than a word holds. No record asks
  for its value, so none is kept. -/
  | real
  | str (value : String)
  | arr (items : List Json)
  | obj (entries : List (String × Json))

namespace Json

def text? : Json → Option String
  | .str s => some s
  | _ => none

def word? : Json → Option UInt64
  | .int n => if 0 ≤ n ∧ n < UInt64.size then some (UInt64.ofNat n.toNat) else none
  | _ => none

def signed? : Json → Option Int64
  | .int n => if -0x8000000000000000 ≤ n ∧ n < 0x8000000000000000 then some (Int64.ofInt n) else none
  | _ => none

def list? (item? : Json → Option α) : Json → Option (List α)
  | .arr items => items.mapM item?
  | _ => none

end Json
end ProgramDependence
