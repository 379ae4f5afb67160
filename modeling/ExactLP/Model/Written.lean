import ExactLP.Model.Constraint
import ExactLP.Number.Operand

/-!
# Model.Written — the text of forms, rows and constraints

An integer is written in full and any other number as its nearest float.  Nothing here limits the
number of digits: a text of any length is made, where a runtime may refuse one of several thousand
digits.  A form is written as `3x + 2y - z`: the coefficient 1 is left out, of -1 only the sign is kept,
and in every term but the first each minus sign of the coefficient stands apart from what follows.
-/

namespace ExactLP

/-- The nearest float of a number. -/
def nearestFloat (q : Rat) : Except NumberFault Float :=
  match Decimal.nearestFloat? q.num q.den with
  | some value => .ok value
  | none => .error .beyondFloats

/-- The exact text of a number, with all digits. -/
def exactText (q : Rat) : String := fractionText q.num q.den

/-- The text of a number in a form or a row; an integer has all its digits. -/
def numberText (q : Rat) : Except NumberFault String :=
  if q.den = 1 then return toString q.num else return Decimal.floatText (← nearestFloat q)

/-- A coefficient before its name. -/
def coefficientText (c : Rat) : Except NumberFault (List Char) :=
  if c = 1 then return []
  else if c = -1 then return ['-']
  else return (← numberText c).toList

/-- A coefficient of a term that is not the first, with its sign set apart. -/
def laterText (c : Rat) (text : List Char) : List Char :=
  let apart := text.flatMap fun ch => if ch = '-' then ['-', ' '] else [ch]
  if 0 < c then '+' :: ' ' :: apart else apart

namespace Terms

/-- The texts of the terms that follow the first. -/
def laterTexts : Terms → Except NumberFault (List (List Char))
  | [] => return []
  | (name, c) :: rest => do
    let text ← coefficientText c
    return (laterText c text ++ name.toList) :: (← laterTexts rest)

/-- The text of a form without zero coefficients. -/
def nonzeroText : Terms → Except NumberFault (List Char)
  | [] => return []
  | (name, c) :: rest => do
    let text ← coefficientText c
    return List.intercalate [' '] ((text ++ name.toList) :: (← laterTexts rest))

/-- The text of a form; terms with coefficient zero are left out. -/
def written (terms : Terms) : Except NumberFault String :=
  return String.ofList (← terms.nonzero.nonzeroText)

end Terms

/-- The text of a row. -/
def Row.written (r : Row) : Except NumberFault String :=
  return s!"{← r.terms.written} {r.cmp.text} {← numberText r.rhs}"

/-- The text of a constraint. -/
def Constraint.written : Constraint → Except NumberFault String
  | plain row => row.written
  | implies p q => return s!"{← p.written} => {← q.written}"
  | equivalent p q => return s!"{← p.written} <=> {← q.written}"
  | joined operator a b => return s!"{← a.written} {operator.text} {← b.written}"

end ExactLP
