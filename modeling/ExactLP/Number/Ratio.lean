import ExactLP.Number.Factor
import ExactLP.Decimal.Notation

/-!
# Number.Ratio — fractions in lowest terms

A `Ratio` is a fraction with a positive denominator, reduced by the common factor that a
`FactorTable` finds.  Its `residual` is what the float it was read from exceeds it by, and zero for a
ratio that was computed.

* `reduce`: every computed ratio goes through it.
* `add`, `sub`: over the larger denominator when one divides the other, else over their product.
* `mul`, `div`: a factor or divisor of one gives back the other operand as it is, residual included.
-/

namespace ExactLP

/-- The text of a fraction; an integer has no denominator. -/
def fractionText (num : Int) (den : Nat) : String :=
  if den = 1 then toString num else s!"{num}/{den}"

/-- A fraction in lowest terms, with the residual of the float it was read from. -/
structure Ratio where
  num : Int
  den : Nat
  residual : Float

namespace Ratio

def zero : Ratio := ⟨0, 1, 0⟩

/-- The fraction `num / den` in lowest terms with a positive denominator, for a `den` that is not zero. -/
def reduce (num den : Int) (residual : Float) : Factoring Ratio := do
  let n := if den < 0 then -num else num
  if n = 0 then return ⟨0, 1, residual⟩
  else
    let common ← commonFactor n den
    return ⟨n / common, den.natAbs / common, residual⟩

/-- A computed fraction: nothing is left over. -/
def computed (num den : Int) : Factoring Ratio :=
  reduce num den 0

/-! ## Predicates and conversions -/

def isZero (x : Ratio) : Bool := x.num == 0

def isOne (x : Ratio) : Bool := x.num == x.den

def isInteger (x : Ratio) : Bool := x.den == 1

/-- Same numerator and same denominator; residuals do not count. -/
def same (x y : Ratio) : Bool := x.num == y.num && x.den == y.den

def toRat (x : Ratio) : Rat := mkRat x.num x.den

def text (x : Ratio) : String := fractionText x.num x.den

/-- The text set to the right in a field of `width` places and two more. -/
def padded (x : Ratio) (width : Int) : String :=
  let cs := x.text.toList
  String.ofList (List.replicate ((width + 2).toNat - cs.length) ' ' ++ cs)

/-- The nearest float. -/
def toFloat? (x : Ratio) : Except NumberFault Float :=
  match Decimal.nearestFloat? x.num x.den with
  | some value => .ok value
  | none => .error .beyondFloats

/-- The largest integer not above `x`. -/
def floorInt (x : Ratio) : Int := x.num.fdiv x.den

/-- The least integer not below `x`. -/
def ceilInt (x : Ratio) : Int := -((-x.num).fdiv x.den)

/-- The integer part, towards zero. -/
def truncate (x : Ratio) : Int := x.num.tdiv x.den

/-! ## Arithmetic -/

/-- The sum `x + sign * y`. -/
def combine (sign : Int) (x y : Ratio) : Factoring Ratio :=
  if x.den = y.den then computed (x.num + sign * y.num) x.den
  else if x.den % y.den = 0 then computed (x.num + sign * (x.den / y.den : Nat) * y.num) x.den
  else if y.den % x.den = 0 then computed (sign * y.num + (y.den / x.den : Nat) * x.num) y.den
  else computed (x.num * y.den + sign * y.num * x.den) (x.den * y.den)

def add (x y : Ratio) : Factoring Ratio := combine 1 x y

def sub (x y : Ratio) : Factoring Ratio := combine (-1) x y

/-- The product.  A factor of one gives back the other factor as it is. -/
def mul (x y : Ratio) : Factoring Ratio :=
  if x.isZero || y.isZero then return zero
  else if x.isOne then return y
  else if y.isOne then return x
  else computed (x.num * y.num) (x.den * y.den)

def reciprocal (x : Ratio) : Factoring Ratio :=
  if x.num = 0 then throw .noReciprocal else computed x.den x.num

/-- The quotient.  A divisor of one and a dividend of zero give back the dividend as it is. -/
def div (x y : Ratio) : Factoring Ratio :=
  if y.isZero then throw .divisionByZero
  else if x.isZero || y.isOne then return x
  else if x.isOne then y.reciprocal
  else computed (x.num * y.den) (x.den * y.num)

def negated (x : Ratio) : Factoring Ratio := computed (-x.num) x.den

def abs (x : Ratio) : Factoring Ratio := if x.num < 0 then x.negated else return x

def floor (x : Ratio) : Factoring Ratio := computed x.floorInt 1

def ceil (x : Ratio) : Factoring Ratio := computed x.ceilInt 1

/-! ## Order -/

/-- Negative, zero or positive as `x` is below, equal to or above `y`. -/
def difference (x y : Ratio) : Int := x.num * y.den - y.num * x.den

end Ratio

end ExactLP
