import ExactLP.Model.Problem

/-!
# Standard.Integral — strictness over integer variables

The left side of a row is integral when it is not empty, all its variables are integers and so are its
coefficients.  Over such a row a strict comparator and an inclusive one say the same of suitable right
sides: `tighten` goes from strict to inclusive and `loosen` back.
-/

namespace ExactLP.Row

/-- The left side takes only integer values when the given names do. -/
def isIntegral (r : Row) (integral : List String) : Bool :=
  !r.terms.isEmpty && r.terms.all fun (name, c) => integral.contains name && c.den == 1

/-- The row with another comparator and right side. -/
def withBound (r : Row) (cmp : Comparator) (rhs : Rat) : Row := of r.terms cmp rhs r.label

/-- An integral strict row as an inclusive one; any other row as it is. -/
def tighten (r : Row) (integral : List String) : Row :=
  if r.strict && r.isIntegral integral then
    match r.cmp with
    | .lt => r.withBound .le (r.rhs.ceil - 1 : Int)
    | _ => r.withBound .ge (r.rhs.floor + 1 : Int)
  else r

/-- An integral inclusive row as a strict one. -/
def loosen? (r : Row) (integral : List String) : Option Row :=
  if r.isIntegral integral then
    match r.cmp with
    | .ge => some (r.withBound .gt (r.rhs.ceil - 1 : Int))
    | .le => some (r.withBound .lt (r.rhs.floor + 1 : Int))
    | _ => none
  else none

end ExactLP.Row
