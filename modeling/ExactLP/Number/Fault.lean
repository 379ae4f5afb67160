/-!
# Number.Fault — why a number cannot be formed

The causes that stop a conversion or an arithmetic operation, and their texts.  A cause without a text
is one that the caller is told of by its kind alone.
-/

namespace ExactLP

/-- Why a conversion or an operation on numbers fails. -/
inductive NumberFault where
  /-- The operand is no number; `kind` says what it is. -/
  | unsuitable (kind : String)
  | notANumber
  | infinite (negative : Bool)
  /-- A fraction was asked for with these two texts as its parts. -/
  | zeroDenominator (num den : String)
  /-- A fraction was given with denominator zero. -/
  | zeroFraction
  /-- A fraction was asked of a text or of a NaN. -/
  | noFraction
  | divisionByZero
  | noReciprocal
  /-- The value is beyond the largest finite float. -/
  | beyondFloats
  /-- An operator was applied to an operand that it does not take. -/
  | unsupported
  /-- A trial divisor was needed and the prime table is empty. -/
  | noPrimes
deriving Repr, DecidableEq

/-- The text of a cause, where it has one. -/
def NumberFault.message : NumberFault → Option String
  | .unsuitable kind => some s!"Cannot build a Rational from {kind}"
  | .notANumber => some "NaN cannot be represented as a Rational"
  | .infinite negative =>
    some ((if negative then "-inf" else "inf") ++ " cannot be represented as a Rational")
  | .zeroDenominator num den => some s!"Zero denominator in Rational({num}, {den})"
  | .divisionByZero => some "Cannot divide by 0 at Rational.div"
  | .noReciprocal => some "Cannot divide by 0 at Rational.reciprocal"
  | .zeroFraction | .noFraction | .beyondFloats | .unsupported | .noPrimes => none

end ExactLP
