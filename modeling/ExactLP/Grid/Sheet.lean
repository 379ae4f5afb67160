import ExactLP.Grid.Determinant

/-!
# Grid.Sheet — a grid that is edited and remembers its determinant

A `Sheet` is a grid together with its determinant once that has been asked for.  An edit that goes
through forgets the determinant; an edit that fails, or that finds nothing to do, leaves the sheet as it
was.

* `Edit`: computations on a sheet, whose state outlives a fault.
* `Sheet.determinant`: answers from memory, or computes and remembers.
-/

namespace ExactLP

/-- A grid and its determinant, once that is known. -/
structure Sheet where
  grid : Grid
  known : Option Rat := none

/-- Computations that edit a sheet; the sheet stays when one fails. -/
abbrev Edit := ExceptT Fault (StateM Sheet)

/-- What a row or a column is set to: a value for each place, or one for all. -/
inductive Entries where
  | each (values : List Operand)
  | all (value : Operand)

namespace Entries

/-- The values for `size` places; one value is converted once. -/
def values (size : Nat) : Entries → Except NumberFault (List Rat)
  | each xs => xs.mapM Operand.value
  | all x => return List.replicate size (← x.value)

end Entries

namespace Sheet

/-- Replaces the grid by what a function makes of it, and forgets the determinant. -/
def edit (f : Grid → Except Fault Grid) : Edit Unit := do
  let grid ← f (← get).grid
  set (Sheet.mk grid none)

def setRow (row : Int) (entries : Entries) : Edit Unit :=
  edit fun g => do g.setRow row (← entries.values g.columnCount)

def setColumn (column : Int) (entries : Entries) : Edit Unit :=
  edit fun g => do g.setColumn column (← entries.values g.rowCount)

def scaleRow (row : Int) (scalar : Operand) : Edit Unit :=
  edit fun g => do g.scaleRow row (← scalar.value)

def divideToOne (row column : Int) : Edit Unit :=
  edit fun g => g.divideToOne row column

/-- The rows are looked at before the scalar. -/
def combine (active reference : Int) (scalar : Operand) : Edit Unit :=
  edit fun g => do
    let _ ← g.rowAt active
    let _ ← g.rowAt reference
    g.combine active reference (← scalar.value)

/-- An edit that is made only where an entry is not zero yet; otherwise the sheet stays, with what it
remembers. -/
def unlessZero (row column : Int) (x : Edit Unit) : Edit Unit := do
  let value ← (← get).grid.get row column
  if value = 0 then return
  x

def zeroOut (active reference column : Int) : Edit Unit :=
  unlessZero active column (edit fun g => g.zeroOut active reference column)

/-- What is said when a row is to be scaled by zero. -/
def scaleWarning? (scalar : Operand) : Option String :=
  match scalar.value with
  | .ok value => if value = 0 then some "Multiplying entire row by 0 at ExactMatrix.scale_row" else none
  | .error _ => none

/-- The determinant, remembered until the next edit. -/
def determinant : Edit (Option Rat) := do
  let sheet ← get
  match sheet.known with
  | some d => return some d
  | none =>
    let d := sheet.grid.determinant?
    set (Sheet.mk sheet.grid d)
    return d

/-- The inverse, by the remembered determinant. -/
def inverse : Edit (Option Grid) := do
  let d ← determinant
  let sheet ← get
  return d.bind fun value => if value = 0 then none else some (sheet.grid.inverseOf value)

end Sheet

end ExactLP
