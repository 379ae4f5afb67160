import ExactLP.Dense
import ExactLP.Model.Problem

/-!
# Model.Arrays — problems from dense arrays

A problem may be given by an objective vector `c`, a matrix `A` and a vector `b` of right sides, with
one comparator for all rows.  `arrayFault?` is the first thing that is wrong with the three arrays.
-/

namespace ExactLP

/-- The first thing wrong with `c`, `A` and `b` for `m` rows and `n` columns.  An array that was never
formed counts as one of no dimension. -/
def arrayFault? (c a b : Option Dense) (m n : Int) : Option ArrayFault :=
  match c.filter (·.dimension == 1), a.filter (·.dimension == 2), b.filter (·.dimension == 1) with
  | none, _, _ => some .objectiveNotVector
  | some _, none, _ => some .matrixNotMatrix
  | some _, some _, none => some .rhsNotVector
  | some c, some a, some b =>
    let rows := a.size
    let columns := a.shape.getD 1 0
    if (columns : Int) ≠ n then some (.columns n columns)
    else if (rows : Int) ≠ m then some (.rows m rows)
    else if (c.size : Int) ≠ n then some (.objectiveLength c.size n)
    else if (b.size : Int) ≠ m then some (.rhsLength b.size m)
    else if !(a.isNumeric && b.isNumeric && c.isNumeric) then some .notNumeric
    else if !c.isFinite then some .objectiveNotFinite
    else if !a.isFinite then some .matrixNotFinite
    else if !b.isFinite then some .rhsNotFinite
    else none

/-- What is said of arrays with nothing wrong. -/
def arraysValidText : String := "Inputs are valid."

/-- The names that columns get when none are given. -/
def columnNames (n : Nat) : List String := (List.range n).map fun i => s!"x{i + 1}"

/-- Coefficients by name; what has no partner is left out, and of a repeated name the last counts. -/
def namedCoefficients (names : List String) (values : List Operand) : Named Operand :=
  Keyed.ofPairs (names.zip values)

/-- An array of a nested list, or a fault when its lists are uneven. -/
def readArray (x : Nested) : Except Fault Dense :=
  match Dense.ofNested x with
  | some a => return a
  | none => throw .unevenArray

/-- The problem of three arrays.  No names means that the columns are numbered. -/
def Problem.readArrays (c a b : Nested) (goal cmp : String)
    (names binary integer unrestricted : List String) : Except Fault Problem := do
  let c ← readArray c
  let a ← readArray a
  let b ← readArray b
  if a.dimension ≠ 2 then throw .arrayDimension
  let columns := a.shape.getD 1 0
  match arrayFault? c a b a.size columns with
  | some what => throw (.array what)
  | none =>
    let names := if names.isEmpty then columnNames columns else names
    let rows ← (a.rows.zip b.elements).mapM fun (row, rhs) =>
      Row.read (namedCoefficients names row) cmp rhs none
    Problem.read goal (namedCoefficients names c.elements) (rows.map .plain) binary integer
      unrestricted (.int 0) none

/-! ## Two examples -/

/-- A list of integers. -/
def Nested.ints (xs : List Int) : Nested := .list (xs.map fun n => .leaf (.int n))

/-- A problem of two variables: `3 x1 + 5 x2` over three rows. -/
def planeExample : Except Fault Problem :=
  Problem.readArrays (.ints [3, 5]) (.list [.ints [1, 0], .ints [0, 2], .ints [3, 2]])
    (.ints [4, 12, 18]) "maximize" "<=" [] [] [] []

/-- A problem of three variables: `2 x1 + 3 x2 + 4 x3` over three rows. -/
def spaceExample : Except Fault Problem :=
  Problem.readArrays (.ints [2, 3, 4]) (.list [.ints [1, 1, 1], .ints [2, 1, 0], .ints [0, 1, 3]])
    (.ints [6, 4, 7]) "maximize" "<=" [] [] [] []

end ExactLP
