/-!
# Text.Ranges — sets of code points

A set of code points is a list of closed ranges that ascend and do not touch.  `holds` reads the list
up to the first range beyond the code point, so on ascending ranges it is membership.
-/

namespace ExactLP.Text

/-- Closed ranges of code points. -/
abbrev CodeRanges := List (Nat × Nat)

namespace CodeRanges

/-- One of the ranges holds the code point. -/
def holds : CodeRanges → Nat → Bool
  | [], _ => false
  | (first, last) :: rest, n => first ≤ n && (n ≤ last || holds rest n)

end CodeRanges

end ExactLP.Text
