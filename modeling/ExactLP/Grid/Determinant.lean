import ExactLP.Grid.Basic

/-!
# Grid.Determinant — determinants, adjugates and inverses

A determinant of size 1 or 2 is taken directly.  A larger one is expanded along a line: for more than
three rows the row or column with the most zeros, of equal ones the first met when row and column of
each position are looked at in turn, and otherwise the second column.  Entries that are zero
contribute nothing and their minors are not formed.  An expansion goes as deep as the grid is large:
nothing here limits the depth, where a runtime may refuse a recursion of several hundred calls.

* `Grid.determinant?`: the determinant of a square grid.
* `Grid.adjugate`: the transposed cofactors.
* `Grid.inverse?`: the adjugate over a determinant that is not zero.
-/

namespace ExactLP

/-- A row or a column to expand along. -/
inductive Line where
  | row (i : Nat)
  | column (j : Nat)
deriving Repr, DecidableEq

namespace Grid

/-- How many entries of a list are zero. -/
def zeroCount (xs : List Rat) : Nat := xs.countP fun x => x == 0

/-- The line with the most zeros among the first `size` rows and columns; a line takes the place of
another only with more zeros. -/
def emptiestLine (g : Grid) (size : Nat) : Line :=
  let better (best : Line × Nat) (line : Line) (zeros : Nat) := if best.2 < zeros then (line, zeros) else best
  let look (best : Line × Nat) (i : Nat) :=
    better (better best (.row i) (zeroCount (g.line i))) (.column i)
      (g.rows.countP fun row => row.getD i 0 == 0)
  ((List.range size).foldl look (Line.column 1, 0)).1

/-- The line that a determinant of a size is expanded along. -/
def expansionLine (g : Grid) (size : Nat) : Line :=
  if 3 < size then g.emptiestLine size else .column 1

/-- The position of entry `i` of a line. -/
def Line.position : Line → Nat → Nat × Nat
  | .row r, i => (r, i)
  | .column c, i => (i, c)

/-- The sign of a place: 1 for an even and -1 for an odd one. -/
def placeSign (n : Nat) : Rat := if n % 2 = 0 then 1 else -1

/-- The determinant of a square grid of a size. -/
def determinantOf : Nat → Grid → Rat
  | 0, _ => 1
  | 1, g => g.entry 0 0
  | 2, g => g.entry 0 0 * g.entry 1 1 - g.entry 0 1 * g.entry 1 0
  | n + 3, g =>
    let line := g.expansionLine (n + 3)
    (List.range (n + 3)).foldl (fun total k =>
      let (i, j) := Line.position line k
      let scalar := g.entry i j
      if scalar = 0 then total
      else total + placeSign (i + j) * (scalar * determinantOf (n + 2) ⟨withoutCross g.rows i j⟩)) 0

/-- The determinant, for a square grid. -/
def determinant? (g : Grid) : Option Rat :=
  if g.isSquare then some (determinantOf g.rowCount g) else none

/-- The signed determinant of the minor at a place of a square grid of a size. -/
def cofactor (size : Nat) (g : Grid) (i j : Nat) : Rat :=
  placeSign (i + j) * determinantOf (size - 1) ⟨withoutCross g.rows i j⟩

/-- The transposed cofactors of a square grid. -/
def adjugateOf (g : Grid) : Grid :=
  ⟨(List.range g.rowCount).map fun i => (List.range g.rowCount).map fun j => cofactor g.rowCount g j i⟩

/-- The transposed cofactors.  A grid of one row or one column has no minor to take them from, and a
minor that is not square has no determinant. -/
def adjugate (g : Grid) : Except Fault Grid :=
  if g.rowCount = 1 then throw .noRows
  else if g.columnCount = 1 then throw .noColumns
  else if g.isSquare then return g.adjugateOf
  else throw .minorNotSquare

/-- The inverse of a square grid with a given determinant that is not zero. -/
def inverseOf (g : Grid) (determinant : Rat) : Grid :=
  match g.rowCount with
  | 1 => ⟨[[(g.entry 0 0)⁻¹]]⟩
  | 2 => ⟨[[g.entry 1 1 / determinant, -g.entry 0 1 / determinant],
           [-g.entry 1 0 / determinant, g.entry 0 0 / determinant]]⟩
  | _ => ⟨g.adjugateOf.rows.map fun row => row.map (· / determinant)⟩

/-- The inverse, for a square grid whose determinant is not zero. -/
def inverse? (g : Grid) : Option Grid :=
  match g.determinant? with
  | none => none
  | some d => if d = 0 then none else some (g.inverseOf d)

end Grid

end ExactLP
