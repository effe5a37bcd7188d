/-! Cutting text at line ends and at the first occurrence of a character. -/
namespace ProgramDependence.Text

/-- The part before the first `sep` and the part after it. -/
def cutAt [DecidableEq α] (sep : α) : List α → Option (List α × List α)
  | [] => none
  | c :: rest =>
    if c = sep then some ([], rest)
    else (cutAt sep rest).map fun (before, after) => (c :: before, after)

/-- The pieces between separators: one more than there are separators. -/
def pieces [DecidableEq α] (sep : α) : List α → List (List α)
  | [] => [[]]
  | c :: rest =>
    if c = sep then [] :: pieces sep rest
    else match pieces sep rest with
      | [] => [[c]]
      | piece :: more => (c :: piece) :: more

/-- A terminated line loses one `cr` that stands before its end. -/
def dropReturn [DecidableEq α] (cr : α) (line : List α) : List α :=
  if line.getLast? = some cr then line.dropLast else line

/-- The lines of a text over any alphabet. What follows the last `lf` is a line of its own
unless it is empty, and keeps a final `cr`. -/
def linesOver [DecidableEq α] (lf cr : α) (text : List α) : List (List α) :=
  let all := pieces lf text
  let terminated := all.dropLast.map (dropReturn cr)
  match all.getLast? with
  | none => terminated
  | some last => if last.isEmpty then terminated else terminated ++ [last]

def lines (text : List Char) : List (List Char) := linesOver '\n' '\r' text

def byteLines (bytes : List UInt8) : List (List UInt8) := linesOver 10 13 bytes

end ProgramDependence.Text
