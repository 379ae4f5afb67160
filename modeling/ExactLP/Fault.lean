import ExactLP.Model.Written
import ExactLP.Text.Quoted

/-!
# Fault — why a problem cannot be stated or solved

Every failure of the library is a `Fault`.  Its kind is one of a few classes, its message is the text
that explains it, and some faults have none.  A *refusal* is a failure to compile or to solve that is
classified by a reason and may report the constraint it comes from.
-/

namespace ExactLP

/-- Why compiling or solving was given up. -/
inductive Reason where
  | exclusiveContradiction
  | iterationLimit
  | notOptimal
  | noIntegerSolution
  | infeasible
  | unreadableImplication
deriving Repr, DecidableEq

/-- The text of a reason. -/
def Reason.text : Reason → String
  | exclusiveContradiction => "An XOR expression cannot be satisfied"
  | iterationLimit => "The iteration limit was reached"
  | notOptimal => "The result was non-optimal"
  | noIntegerSolution => "No integer solution could be found"
  | infeasible => "This problem is infeasible"
  | unreadableImplication => "An If-Then statement could not be parsed"

/-- A classified failure, with what it reports and the constraint it comes from. -/
structure Refusal where
  reason : Reason
  report : Option String := none
  origin : Option Constraint := none
deriving DecidableEq

/-- The text of the reason, and of the report when there is one that is not empty. -/
def Refusal.message (r : Refusal) : String :=
  match r.report with
  | none | some "" => r.reason.text
  | some report => s!"{r.reason.text}: {report}"

/-- What is wrong with dense arrays of coefficients. -/
inductive ArrayFault where
  | objectiveNotVector
  | matrixNotMatrix
  | rhsNotVector
  | columns (expected : Int) (actual : Nat)
  | rows (expected : Int) (actual : Nat)
  | objectiveLength (actual : Nat) (expected : Int)
  | rhsLength (actual : Nat) (expected : Int)
  | notNumeric
  | objectiveNotFinite
  | matrixNotFinite
  | rhsNotFinite
deriving Repr, DecidableEq

def ArrayFault.message : ArrayFault → String
  | objectiveNotVector => "Objective coefficients (c) must be a 1D array."
  | matrixNotMatrix => "Constraint matrix (A) must be a 2D array."
  | rhsNotVector => "RHS values (b) must be a 1D array."
  | columns n actual => s!"Number of variables (n={n}) doesn't match A's columns ({actual})."
  | rows m actual => s!"Number of constraints (m={m}) doesn't match A's rows ({actual})."
  | objectiveLength actual n => s!"Length of objective coefficients c ({actual}) doesn't match n ({n})."
  | rhsLength actual m => s!"Length of RHS values b ({actual}) doesn't match m ({m})."
  | notNumeric => "Inputs must be numeric."
  | objectiveNotFinite => "Objective coefficients (c) contain non-finite values (NaN or Inf)."
  | matrixNotFinite => "Constraint matrix (A) contains non-finite values (NaN or Inf)."
  | rhsNotFinite => "RHS values (b) contain non-finite values (NaN or Inf)."

/-- What is wrong with a tableau. -/
inductive Corruption where
  | basisLength (length rows : Nat)
  | columnCount (columns names : Nat)
  | missingColumn (index : Int)
  | negativeRhs (value : Rat) (row : Nat)
deriving DecidableEq

def Corruption.message : Corruption → String
  | basisLength length rows => s!"Basis length {length} does not match tableau row count {rows}"
  | columnCount columns names => s!"Tableau has {columns} columns for {names} variables"
  | missingColumn index => s!"Basis refers to missing column {index}"
  | negativeRhs value row => s!"Negative right-hand side {exactText value} at row {row} after pivot"

/-- Any failure of the library. -/
inductive Fault where
  | number (cause : NumberFault)
  | refused (refusal : Refusal)
  | unbounded
  | corrupted (what : Corruption)
  /-- A list was read or written beyond its end. -/
  | outOfRange
  -- matrices
  | noRows
  | noColumns
  | ragged
  | rowIndex (index : Int) (size : Nat)
  | columnIndex (index : Int) (size : Nat)
  | rowLength (expected got : Nat)
  | columnLength (expected got : Nat)
  /-- A minor that is not square has no determinant to negate. -/
  | minorNotSquare
  -- rows, constraints and problems
  | unknownComparator (text : String)
  | unknownJunction (text : String)
  | unknownGoal (text : String)
  | thresholdOutside (text : String)
  | thresholdUnordered
  | notOneTerm
  | notLogical
  | noLeftSide
  -- standard form and search
  | reservedNames (names : List String)
  | duplicateColumns
  | unknownDirection (text : String)
  | negativeIterations
  | negativeBranches
  | unknownColumns (names : List String)
  -- dense arrays
  | unevenArray
  | arrayDimension
  | array (what : ArrayFault)
deriving DecidableEq

/-- The classes of faults. -/
inductive FaultKind where
  | value | type | index | attribute | zeroDivision | arithmetic | overflow
  | refused (reason : Reason)
  | unbounded
  | corrupted
deriving Repr, DecidableEq

/-- The class of a cause. -/
def NumberFault.kind : NumberFault → FaultKind
  | unsuitable _ | unsupported => .type
  | notANumber | infinite _ => .arithmetic
  | zeroDenominator _ _ | zeroFraction | divisionByZero | noReciprocal => .zeroDivision
  | beyondFloats => .overflow
  | noPrimes => .index
  | noFraction => .value

namespace Fault

/-- The class of a fault. -/
def kind : Fault → FaultKind
  | number cause => cause.kind
  | refused refusal => .refused refusal.reason
  | unbounded => .unbounded
  | corrupted _ => .corrupted
  | outOfRange | rowIndex _ _ | columnIndex _ _ => .index
  | minorNotSquare | noLeftSide => .attribute
  | thresholdUnordered | notLogical => .type
  | noRows | noColumns | ragged | rowLength _ _ | columnLength _ _ | unknownComparator _
  | unknownJunction _ | unknownGoal _ | thresholdOutside _ | notOneTerm | reservedNames _
  | duplicateColumns | unknownDirection _ | negativeIterations | negativeBranches | unknownColumns _
  | unevenArray | arrayDimension | array _ => .value

/-- The text of a fault, where it has one. -/
def message : Fault → Option String
  | number cause => cause.message
  | refused refusal => some refusal.message
  | unbounded => some "Problem is unbounded."
  | corrupted what => some what.message
  | outOfRange | minorNotSquare | thresholdUnordered | notOneTerm | noLeftSide | unevenArray
  | arrayDimension => none
  | noRows => some "Cannot form empty matrix without rows"
  | noColumns => some "Cannot form empty matrix without columns"
  | ragged => some "Non-rectangular matrix"
  | rowIndex index size => some s!"Invalid row index {index} for size {size}"
  | columnIndex index size => some s!"Invalid column index {index} for size {size}"
  | rowLength expected got =>
    some s!"Incorrect number of values in set_row, expected {expected} but got {got}"
  | columnLength expected got =>
    some s!"Incorrect number of values in set_column, expected {expected} but got {got}"
  | unknownComparator text =>
    some s!"Unknown comparator '{text}', expected one of ('<', '<=', '=', '>=', '>')"
  | unknownJunction text => some s!"Unknown logical operator '{text}'"
  | unknownGoal text => some s!"optimizer must be one of ('maximize', 'minimize'), got '{text}'"
  | thresholdOutside text => some s!"threshold must be in (0, 1], got {text}"
  | notLogical => some "Cannot compile bound of type StandardBound"
  | reservedNames names =>
    some s!"Variable names starting with '_y' are reserved: {Text.quoteList names}"
  | duplicateColumns => some "Duplicate column names; bound names must be unique"
  | unknownDirection text => some s!"optimizer must be 'maximize' or 'minimize', got '{text}'"
  | negativeIterations => some "max_iterations must be nonnegative"
  | negativeBranches => some "max_branches must be nonnegative"
  | unknownColumns names => some s!"Objective refers to unknown columns: {Text.quoteList names}"
  | array what => some what.message

/-- A refusal for a reason, with a report. -/
def refusing (reason : Reason) (report : String) (origin : Option Constraint) : Fault :=
  refused ⟨reason, some report, origin⟩

end Fault

/-- A failure to form a number is a fault. -/
instance : MonadLift (Except NumberFault) (Except Fault) where
  monadLift x := x.mapError Fault.number

end ExactLP
