/-! Finite sets as strictly ascending lists, and numbers in order. -/
namespace ProgramDependence.Ascending

def insert [LT α] [DecidableEq α] [DecidableLT α] (x : α) : List α → List α
  | [] => [x]
  | y :: ys =>
    if x = y then y :: ys
    else if x < y then x :: y :: ys
    else y :: insert x ys

def ofList [LT α] [DecidableEq α] [DecidableLT α] (xs : List α) : List α := xs.foldr insert []

def place (n : Nat) : List Nat → List Nat
  | [] => [n]
  | m :: ms => if n ≤ m then n :: m :: ms else m :: place n ms

/-- Numbers in order, as often as they come. -/
def sort (ns : List Nat) : List Nat := ns.foldr place []

end ProgramDependence.Ascending
