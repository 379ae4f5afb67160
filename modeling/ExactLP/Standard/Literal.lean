import ExactLP.Model.Problem

/-!
# Standard.Literal — rows over one binary variable

Over one binary variable a row holds always, never, or for exactly one of the values 0 and 1.
-/

namespace ExactLP

/-- The truth of a row over one binary variable. -/
inductive Truth where
  | always
  | never
  /-- The row says that the variable has this value. -/
  | literal (name : String) (value : Bool)
deriving Repr, DecidableEq

/-- The number of a truth value: 1 for true and 0 for false. -/
def bit (b : Bool) : Rat := if b then 1 else 0

/-- The row says that a variable has a value. -/
def literalRow (name : String) (value : Bool) : Row :=
  Row.of [(name, 1)] .eq (bit value) none

/-- The row `c * name cmp rhs` over a binary `name`. -/
def truthOf (name : String) (c : Rat) (cmp : Comparator) (rhs : Rat) : Truth :=
  if cmp.Holds 0 rhs then
    if cmp.Holds c rhs then .always else .literal name false
  else if cmp.Holds c rhs then .literal name true
  else .never

/-- The truth of a row with exactly one term. -/
def Row.truth (r : Row) : Except Fault Truth :=
  match r.terms with
  | [(name, c)] => return truthOf name c r.cmp r.rhs
  | _ => throw .notOneTerm

end ExactLP
