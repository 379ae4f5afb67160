import ExactLP.Model.Problem

/-!
# Standard.BigM — a constant that outweighs a row

A logical form is linearized with a constant that is to outweigh its rows.  `bigM` estimates it: for
each variable the largest of its own coefficients times the largest `|rhs / coefficient|` that an
unrelated row leaves it, and over all variables the largest of these.  The constant is at least the
largest own coefficient, and a fixed one where the estimate is not positive.
-/

namespace ExactLP

/-- The magnitude of a number. -/
def magnitude (q : Rat) : Rat := if q < 0 then -q else q

/-- The larger of two numbers. -/
def larger (a b : Rat) : Rat := if a < b then b else a

/-- Raises the number under a name, which starts at zero. -/
def Named.raise (table : Named Rat) (name : String) (value : Rat) : Named Rat :=
  table.put name (larger ((table.find? name).getD 0) value)

/-- The largest own coefficient of each variable. -/
def ownCoefficients (operands : List Row) : Named Rat :=
  operands.foldl (fun table row =>
    row.terms.foldl (fun table (name, c) => table.raise name (magnitude c)) table) []

/-- The largest `|rhs / coefficient|` that some row leaves each variable. -/
def reaches (others : List Row) : Named Rat :=
  others.foldl (fun table row =>
    row.terms.foldl (fun table (name, c) => table.raise name (magnitude (row.rhs / c))) table) []

/-- The largest of some numbers, and zero. -/
def largest (xs : List Rat) : Rat := xs.foldl larger 0

/-- The constant where nothing bounds the operands. -/
def bigMFallback : Rat := 10000000000

/-- The constant for some operands among unrelated rows. -/
def bigM (operands others : List Row) : Rat :=
  let own := ownCoefficients operands
  let reach := reaches others
  let estimate := largest (own.map fun (name, c) => c * (reach.find? name).getD 0)
  if 0 < estimate then larger estimate (largest (own.map Prod.snd)) else bigMFallback

end ExactLP
