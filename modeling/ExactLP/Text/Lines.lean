import ExactLP.Text.Blank

/-!
# Text.Lines — texts of several lines

There are two ways to cut a text.  `lines` cuts at every end of a line that Unicode knows, takes a
carriage return with its line feed for one end, and has no line after a last end.  `pieces` cuts at
each carriage return and each line feed alone, and what follows the last one is a piece too.
-/

namespace ExactLP.Text

/-- Line and paragraph ends: feeds, returns, the file, group and record separators and their kin. -/
def lineEnds : CodeRanges := [(0x0A, 0x0D), (0x1C, 0x1E), (0x85, 0x85), (0x2028, 0x2029)]

/-- The character ends a line. -/
def endsLine (c : Char) : Bool := lineEnds.holds c.toNat

/-- The lines of a text. -/
def lines : List Char → List (List Char)
  | [] => []
  | '\r' :: '\n' :: rest => [] :: lines rest
  | c :: rest =>
    if endsLine c then [] :: lines rest
    else match lines rest with
      | [] => [[c]]
      | line :: more => (c :: line) :: more

/-- The character is a carriage return or a line feed. -/
def isReturn (c : Char) : Bool := c == '\r' || c == '\n'

/-- The pieces of a text between carriage returns and line feeds. -/
def pieces : List Char → List (List Char)
  | [] => [[]]
  | c :: rest =>
    if isReturn c then [] :: pieces rest
    else match pieces rest with
      | [] => [[c]]
      | piece :: more => (c :: piece) :: more

end ExactLP.Text
