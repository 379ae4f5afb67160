import ExactLP.Fault

/-!
# Model.Problem — complete problem descriptions

A problem has a goal, a linear objective with an offset, constraints over named variables, and lists
of the variables that are binary, integer or unrestricted in sign.  Every other variable is a
nonnegative real.  An optional threshold is the fraction of the root bound at which a search may stop.

* `Row.read`, `Problem.read`: from given operands, refusing the first thing that is wrong.
* `Problem.names`: the names, by first occurrence.
-/

namespace ExactLP

/-- The direction of optimization. -/
inductive Goal where
  | maximize | minimize
deriving Repr, DecidableEq

namespace Goal

def text : Goal → String
  | maximize => "maximize"
  | minimize => "minimize"

def ofText? : String → Option Goal
  | "maximize" => some maximize
  | "minimize" => some minimize
  | _ => none

theorem ofText?_text (g : Goal) : ofText? g.text = some g := by
  cases g <;> rfl

/-- The sign of a goal, 1 for a maximum and -1 for a minimum: a larger `sign * value` is better. -/
def sign : Goal → Int
  | maximize => 1
  | minimize => -1

end Goal

/-! ## Reading rows -/

/-- The rational numbers of named operands, in order. -/
def readTerms (given : Named Operand) : Except NumberFault Terms :=
  given.convert Operand.value

/-- The text of a form that is given by operands.  Each is read and written before the next, so of two
faults the first in order is met. -/
def writtenTerms (given : Named Operand) : Except NumberFault String := do
  let terms ← given.convert fun x => do
    let c ← x.value
    let _ ← coefficientText c
    return c
  Terms.written terms

/-- A row from its parts: the comparator is looked at first, then the form, then the right side. -/
def Row.read (terms : Named Operand) (cmp : String) (rhs : Operand) (label : Option String) :
    Except Fault Row := do
  let some cmp := Comparator.ofText? cmp | throw (.unknownComparator cmp)
  let terms ← readTerms terms
  let rhs ← rhs.value
  return Row.of terms cmp rhs label

/-- A junction of two rows from the text of its operator. -/
def Constraint.readJoined (operator : String) (a b : Row) : Except Fault Constraint :=
  match Junction.ofText? operator with
  | some j => return joined j a b
  | none => throw (.unknownJunction operator)

/-! ## Thresholds -/

/-- A fraction of the root bound, as it was given and as the number that it stands for. -/
structure Threshold where
  given : Operand
  value : Rat

namespace Threshold

/-- The operand lies above 0 and not above 1; floats are compared as they are given. -/
def inUnitInterval : Operand → Except Fault Bool
  | .float x => return 0 < x && x ≤ 1
  | .other _ => throw .thresholdUnordered
  | x => do
    let q : Rat ← x.value
    return 0 < q && q ≤ 1

/-- A threshold from an operand that lies in the interval. -/
def read (x : Operand) : Except Fault Threshold := do
  if ← inUnitInterval x then return ⟨x, ← x.value⟩ else throw (.thresholdOutside x.text)

end Threshold

/-! ## Problems -/

/-- A complete problem description. -/
structure Problem where
  goal : Goal
  objective : Terms
  constraints : List Constraint := []
  binary : List String := []
  integer : List String := []
  unrestricted : List String := []
  offset : Rat := 0
  threshold : Option Threshold := none

namespace Problem

/-- A problem from its parts: the goal is looked at first, then the threshold, the objective and the
offset.  Zero coefficients of the objective are dropped. -/
def read (goal : String) (objective : Named Operand) (constraints : List Constraint)
    (binary integer unrestricted : List String) (offset : Operand) (threshold : Option Operand) :
    Except Fault Problem := do
  let some goal := Goal.ofText? goal | throw (.unknownGoal goal)
  let threshold ← threshold.mapM Threshold.read
  let objective ← readTerms objective
  let offset ← offset.value
  return { goal, objective := objective.nonzero, constraints, binary, integer, unrestricted, offset,
           threshold }

/-- The names of the objective, of the rows and of the declarations, by first occurrence.  Logical
forms have no left side to read names from. -/
def names (p : Problem) : Except Fault (List String) := do
  let rows ← p.constraints.mapM fun
    | .plain row => return row.names
    | _ => throw .noLeftSide
  return firstOccurrences
    (p.objective.names ++ rows.flatten ++ p.binary ++ p.integer ++ p.unrestricted)

end Problem

end ExactLP
