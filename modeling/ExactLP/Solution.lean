import ExactLP.Equations
import ExactLP.Grid.Basic

/-!
# Solution — what a tableau says of the caller's names

`Solution.ofTableau` reads a basic solution off a tableau: each basic column has the right side of its
row and every other column is zero.  Parts of a split variable are put together again, artificial
columns and those of internal rows are left out.  Columns that do not know where they come from are
read under no name.
-/

namespace ExactLP

/-- Values by name or label, or under no name. -/
abbrev Labelled (α : Type) := Keyed (Option String) α

/-- An objective value and, by name or label, values, slacks, reduced costs and prices. -/
structure Solution where
  objective : Rat
  values : Labelled Rat := []
  slacks : Labelled Rat := []
  reducedCost : Labelled Rat := []
  dual : Labelled Rat := []
deriving DecidableEq

namespace Solution

/-- The positions and values of the basic columns; row 0 has none, and the last row counts. -/
def levels (tableau : Grid) (basis : List (Option Int)) : Except Fault (List (Int × Rat)) := do
  let listed ← basis.zipIdx.mapM fun (index, row) => do
    match index with
    | some j => if row = 0 then return [] else return [(j, ← tableau.get row (-1))]
    | none => return []
  return listed.flatten.reverse

/-- What has been read so far. -/
structure Reading where
  solution : Solution
  /-- Value and cost of the parts that are added. -/
  positive : Labelled (Rat × Rat) := []
  /-- Values of the parts that are subtracted. -/
  negative : Labelled Rat := []

namespace Reading

/-- The entry of row 0 in a column. -/
def costAt (costs : List Rat) (j : Nat) : Except Fault Rat :=
  match costs[j]? with
  | some cost => return cost
  | none => throw .outOfRange

/-- Reads one column. -/
def column (levels : List (Int × Rat)) (costs : List Rat) (r : Reading) (c : Column) (j : Nat) :
    Except Fault Reading := do
  let value := (levels.lookup (j : Int)).getD 0
  let s := r.solution
  if c.internal then return r
  else match c.role with
    | .artificial _ => return r
    | .surplus label | .excess label | .pseudo label =>
      let cost ← costAt costs j
      return { r with solution := { s with
        slacks := s.slacks.put label value, dual := s.dual.put label cost } }
    | .positivePart x =>
      let cost ← costAt costs j
      return { r with positive := r.positive.put x (value, cost) }
    | .negativePart x => return { r with negative := r.negative.put x value }
    | .decision | .condition =>
      let cost ← costAt costs j
      return { r with solution := { s with
        values := s.values.put (some c.name) value, reducedCost := s.reducedCost.put (some c.name) cost } }

/-- The names of split variables: those with an added part first. -/
def splitNames (r : Reading) : List (Option String) :=
  r.positive.names ++ r.negative.names.filter fun name => !r.positive.names.contains name

/-- The solution with the parts of split variables put together. -/
def joined (r : Reading) : Solution :=
  r.splitNames.foldl (fun s name =>
    let (value, cost) := (r.positive.find? name).getD (0, 0)
    { s with
      values := s.values.put name (value - (r.negative.find? name).getD 0)
      reducedCost := s.reducedCost.put name cost }) r.solution

end Reading

/-- The solution with given basic values and costs. -/
def assemble (levels : List (Int × Rat)) (costs : List Rat) (columns : List Column) (offset : Rat) :
    Except Fault Solution := do
  let start : Reading := { solution := { objective := costs.getLastD 0 + offset } }
  let reading ← columns.zipIdx.foldlM (fun r (c, j) => r.column levels costs c j) start
  return reading.joined

/-- The solution that a tableau and its basis stand for. -/
def ofTableau (tableau : Grid) (columns : List Column) (basis : List (Option Int)) (offset : Operand) :
    Except Fault Solution := do
  let levels ← levels tableau basis
  assemble levels (tableau.line 0) columns (← offset.value)

/-- The solution without the values of some names. -/
def without (s : Solution) (names : List String) : Solution :=
  let keep (table : Labelled Rat) := table.filter fun p => !p.1.any names.contains
  { s with values := keep s.values, reducedCost := keep s.reducedCost }

/-- The value of a name; a name that does not occur has value zero. -/
def value (s : Solution) (name : String) : Rat := (s.values.find? (some name)).getD 0

end Solution

/-- A solution as floats. -/
structure FloatSolution where
  objective : Float
  values : Labelled Float
  slacks : Labelled Float
  reducedCost : Labelled Float
  dual : Labelled Float

/-- Every number of a solution as its nearest float. -/
def Solution.floats (s : Solution) : Except NumberFault FloatSolution :=
  return ⟨← nearestFloat s.objective, ← s.values.convert nearestFloat, ← s.slacks.convert nearestFloat,
    ← s.reducedCost.convert nearestFloat, ← s.dual.convert nearestFloat⟩

end ExactLP
