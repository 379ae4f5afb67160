import ExactLP.Fault
import ExactLP.Text.Columns

/-!
# Grid.Basic — rectangular matrices of rational numbers

A `Grid` has at least one row and one column, and rows of one length; `Grid.ofRows` and `Grid.read`
refuse anything else.  An index counts from the start, or from the end when it is negative, and one
that points outside is refused.

* Accessors: `get`, `row`, `column`, `rowSum`, `columnSum`.
* Row operations: `setRow`, `setColumn`, `scaleRow`, `divideToOne`, `combine`, `zeroOut`.  Each gives a
  new grid or a fault, so a failed operation changes nothing.
* Algebra: `transposed`, `multiply`, `identity`, `minor`.
-/

namespace ExactLP

/-- A matrix by rows. -/
structure Grid where
  rows : List (List Rat)
deriving DecidableEq

/-- A position counted from the start, or from the end when it is negative. -/
def resolveIndex (index : Int) (size : Nat) : Option Nat :=
  let fixed := if index < 0 then index + size else index
  if 0 ≤ fixed ∧ fixed < size then some fixed.toNat else none

theorem resolveIndex_lt {index : Int} {size i : Nat} (h : resolveIndex index size = some i) : i < size := by
  simp only [resolveIndex, Option.ite_none_right_eq_some, Option.some.injEq] at h
  omega

namespace Grid

/-! ## Shape -/

/-- Refuses rows that form no rectangle with at least one entry. -/
def checkShape {α : Type} : List (List α) → Except Fault Unit
  | [] => throw .noRows
  | first :: rest =>
    if first.isEmpty then throw .noColumns
    else if rest.all fun row => row.length == first.length then return ()
    else throw .ragged

/-- The grid with some rows. -/
def ofRows (rows : List (List Rat)) : Except Fault Grid := do
  checkShape rows
  return ⟨rows⟩

/-- A grid of operands; the shape is looked at before the entries. -/
def read (rows : List (List Operand)) : Except Fault Grid := do
  checkShape rows
  return ⟨← rows.mapM fun row => row.mapM fun x => x.value⟩

def rowCount (g : Grid) : Nat := g.rows.length

def columnCount (g : Grid) : Nat := (g.rows.headD []).length

def isSquare (g : Grid) : Bool := g.rowCount == g.columnCount

/-- The row that an index points at. -/
def rowAt (g : Grid) (index : Int) : Except Fault Nat :=
  match resolveIndex index g.rowCount with
  | some i => return i
  | none => throw (.rowIndex index g.rowCount)

/-- The column that an index points at. -/
def columnAt (g : Grid) (index : Int) : Except Fault Nat :=
  match resolveIndex index g.columnCount with
  | some j => return j
  | none => throw (.columnIndex index g.columnCount)

/-! ## Entries -/

/-- Row `i`; there are no entries outside. -/
def line (g : Grid) (i : Nat) : List Rat := g.rows.getD i []

/-- The entry in row `i` and column `j`; outside it is zero. -/
def entry (g : Grid) (i j : Nat) : Rat := (g.line i).getD j 0

/-- The last entry of row `i`. -/
def lastEntry (g : Grid) (i : Nat) : Rat := g.entry i (g.columnCount - 1)

def get (g : Grid) (row column : Int) : Except Fault Rat := do
  let i ← g.rowAt row
  let j ← g.columnAt column
  return g.entry i j

def row (g : Grid) (index : Int) : Except Fault (List Rat) := do
  return g.line (← g.rowAt index)

def column (g : Grid) (index : Int) : Except Fault (List Rat) := do
  let j ← g.columnAt index
  return g.rows.map fun r => r.getD j 0

def rowSum (g : Grid) (index : Int) : Except Fault Rat := do
  return (← g.row index).foldl (· + ·) 0

def columnSum (g : Grid) (index : Int) : Except Fault Rat := do
  return (← g.column index).foldl (· + ·) 0

/-! ## Row operations -/

/-- The grid with row `i` replaced. -/
def replaceRow (g : Grid) (i : Nat) (values : List Rat) : Grid := ⟨g.rows.set i values⟩

/-- The grid with column `j` replaced. -/
def replaceColumn (g : Grid) (j : Nat) (values : List Rat) : Grid :=
  ⟨List.zipWith (fun row value => row.set j value) g.rows values⟩

/-- The sum `row + k * other`, entry by entry. -/
def addScaled (row other : List Rat) (k : Rat) : List Rat :=
  List.zipWith (fun a b => a + b * k) row other

def setRow (g : Grid) (index : Int) (values : List Rat) : Except Fault Grid := do
  if values.length ≠ g.columnCount then throw (.rowLength g.columnCount values.length)
  return g.replaceRow (← g.rowAt index) values

def setColumn (g : Grid) (index : Int) (values : List Rat) : Except Fault Grid := do
  if values.length ≠ g.rowCount then throw (.columnLength g.rowCount values.length)
  return g.replaceColumn (← g.columnAt index) values

def fillRow (g : Grid) (index : Int) (value : Rat) : Except Fault Grid :=
  g.setRow index (List.replicate g.columnCount value)

def fillColumn (g : Grid) (index : Int) (value : Rat) : Except Fault Grid :=
  g.setColumn index (List.replicate g.rowCount value)

/-- Every entry of a row times `k`. -/
def scaleRow (g : Grid) (index : Int) (k : Rat) : Except Fault Grid := do
  let i ← g.rowAt index
  return g.replaceRow i ((g.line i).map (· * k))

/-- A row scaled so that its entry in a column reads one. -/
def divideToOne (g : Grid) (row column : Int) : Except Fault Grid := do
  let value ← g.get row column
  if value = 0 then throw (.number .noReciprocal)
  g.scaleRow row value⁻¹

/-- The active row plus `k` times the reference row. -/
def combine (g : Grid) (active reference : Int) (k : Rat) : Except Fault Grid := do
  let i ← g.rowAt active
  let r ← g.rowAt reference
  return g.replaceRow i (addScaled (g.line i) (g.line r) k)

/-- Cancels the entry of the active row in a column by means of the reference row.  An entry that is
zero already needs no reference. -/
def zeroOut (g : Grid) (active reference column : Int) : Except Fault Grid := do
  let value ← g.get active column
  if value = 0 then return g
  let pivot ← g.get reference column
  if pivot = 0 then throw (.number .divisionByZero)
  g.combine active reference (-value / pivot)

/-! ## Algebra -/

/-- The identity of a size, as rows. -/
def identityRows (size : Nat) : List (List Rat) :=
  (List.range size).map fun i => (List.range size).map fun j => if i = j then 1 else 0

def identity (size : Nat) : Except Fault Grid := ofRows (identityRows size)

/-- The columns of a grid, as lists. -/
def columns (g : Grid) : List (List Rat) :=
  (List.range g.columnCount).map fun j => g.rows.map fun r => r.getD j 0

def transposed (g : Grid) : Grid := ⟨g.columns⟩

/-- The sum of the products of two lists, entry by entry. -/
def dot (xs ys : List Rat) : Rat :=
  (List.zipWith (· * ·) xs ys).foldl (· + ·) 0

/-- The matrix product, where the shapes fit. -/
def multiply? (g h : Grid) : Option Grid :=
  if g.columnCount = h.rowCount then
    some ⟨g.rows.map fun row => h.columns.map fun column => dot row column⟩
  else none

/-- Rows without row `i` and column `j`; a position that is not there removes nothing. -/
def withoutCross (rows : List (List Rat)) (i j : Nat) : List (List Rat) :=
  (rows.eraseIdx i).map fun row => row.eraseIdx j

/-- The grid without a row and a column.  Here a negative index points at nothing. -/
def minor (g : Grid) (row column : Int) : Except Fault Grid :=
  let i := if row < 0 then g.rowCount else row.toNat
  let j := if column < 0 then g.columnCount else column.toNat
  ofRows (withoutCross g.rows i j)

/-! ## Texts -/

/-- The exact texts of the entries. -/
def texts (g : Grid) : List (List String) := g.rows.map fun row => row.map exactText

/-- The entries as floats. -/
def floats (g : Grid) : Except NumberFault (List (List Float)) :=
  g.rows.mapM fun row => row.mapM nearestFloat

/-- The rows with their labels, of which there may be too few; without labels no column is added. -/
def labelled (g : Grid) (labels : List String) : List (List String) :=
  if labels.isEmpty then g.texts
  else g.texts.mapIdx fun i row => labels.getD i "" :: row

/-- The grid as a text table.  No labels means no label column, and no headers no header line. -/
def render (g : Grid) (labels headers : List String) : String :=
  let heads := if headers.isEmpty then [] else if labels.isEmpty then headers else "" :: headers
  Text.table heads (g.labelled labels)

/-- The shape of a grid as a text. -/
def summary (g : Grid) : String := s!"ExactMatrix({g.rowCount}x{g.columnCount})"

end Grid

end ExactLP
