import ExactLP.Solution

/-!
# Simplex.State — a tableau under way

Row 0 of the tableau holds the reduced costs and the objective value, every other row a constraint
whose basic column the basis records.  A `Step` is a computation on the state that keeps what was done
before a fault.

* `State.ofEquations`, `State.read`: the tableau before the first pivot.
* `TieBreak`: which of several equal candidates is taken, given the candidates offered before.
-/

namespace ExactLP.Simplex

/-- Which candidate is taken, given the lists offered before and the one offered now. -/
abbrev TieBreak := List (List Nat) → List Nat → Nat

namespace TieBreak

/-- Always the first candidate. -/
def first : TieBreak := fun _ candidates => candidates.headD 0

/-- Always the last candidate. -/
def last : TieBreak := fun _ candidates => candidates.getLastD 0

end TieBreak

/-- The two phases: first the sum of the artificial columns is minimized, then the objective counts. -/
inductive Phase where
  | one | two
deriving Repr, DecidableEq

def Phase.number : Phase → Nat
  | one => 1
  | two => 2

/-- What a run does not change. -/
structure Setting where
  goal : Goal
  objective : Terms
  offset : Rat := 0
  /-- How many pivots each phase may take. -/
  limit : Nat := 500
  tieBreak : TieBreak

/-- What a run changes.  Basis entry 0 belongs to the objective row and is empty, as is the entry of a
row found redundant.  Once a right side reads zero the run is degenerate for good. -/
structure State where
  tableau : Grid
  columns : List Column
  basis : List (Option Int)
  goal : Goal
  phase : Phase := .two
  degenerate : Bool := false
  pivots : List (Int × Int) := []
  offered : List (List Nat) := []
deriving DecidableEq

/-- Computations on a state; the state stays when one fails. -/
abbrev Step := ExceptT Fault (StateM State)

/-! ## Parts of a state -/

namespace State

/-- There are artificial columns. -/
def hasArtificials (s : State) : Bool := s.columns.any fun c => c.role.isArtificial

/-- The positions of the constraint rows. -/
def constraintRows (s : State) : List Nat := (List.range (s.tableau.rowCount - 1)).map (· + 1)

/-- A column by its position, from the end when that is negative. -/
def column (s : State) (index : Int) : Except Fault Column :=
  match (resolveIndex index s.columns.length).bind (s.columns[·]?) with
  | some c => return c
  | none => throw .outOfRange

/-- The basis entry of a row. -/
def basisEntry (s : State) (row : Nat) : Except Fault (Option Int) :=
  match s.basis[row]? with
  | some entry => return entry
  | none => throw .outOfRange

/-- The state with another basis entry. -/
def setBasis (s : State) (row : Int) (entry : Option Int) : Except Fault State :=
  match resolveIndex row s.basis.length with
  | some i => return { s with basis := s.basis.set i entry }
  | none => throw .outOfRange

/-- The objective row of phase two: each cost is the negated coefficient of its column's name. -/
def objectiveRow (columns : List Column) (objective : Terms) : List Rat :=
  (columns.map fun c => if c.eliminated then 0 else -objective.coefficient c.name) ++ [0]

/-- The first thing that is wrong with the shape of the basis and the tableau. -/
def corruption? (s : State) : Option Corruption :=
  if s.basis.length ≠ s.tableau.rowCount then some (.basisLength s.basis.length s.tableau.rowCount)
  else if s.tableau.columnCount ≠ s.columns.length + 1 then
    some (.columnCount s.tableau.columnCount s.columns.length)
  else (s.basis.tail.findSome? fun
    | some j => if 0 ≤ j ∧ j < s.columns.length then none else some j
    | none => none).map .missingColumn

/-- Refuses a state whose basis does not fit its tableau. -/
def checkBasis (s : State) : Except Fault Unit :=
  match s.corruption? with
  | some what => throw (.corrupted what)
  | none => return ()

/-- Refuses a state whose basis does not fit its tableau, and gives back any other. -/
def checked (s : State) : Except Fault State := do
  s.checkBasis
  return s

/-- Refuses an objective over names that no column has. -/
def checkNames (objective : Terms) (columns : List Column) : Except Fault Unit :=
  let unknown := objective.names.filter fun name => !(columns.map Column.name).contains name
  if unknown.isEmpty then return () else throw (.unknownColumns unknown)

/-- The state before the first pivot, from given constraint rows.  The shape of the rows is looked at
before their entries. -/
def read (setting : Setting) (rows : List (List Operand)) (columns : List Column)
    (basis : List (Option Int)) : Except Fault State := do
  checkNames setting.objective columns
  let costs := objectiveRow columns setting.objective
  Grid.checkShape (costs.map (fun _ => ()) :: rows.map fun row => row.map fun _ => ())
  let rows ← rows.mapM fun row => row.mapM fun x => x.value
  checked { tableau := ⟨costs :: rows⟩, columns, basis := none :: basis, goal := setting.goal }

/-- The state of some equations before the first pivot. -/
def ofEquations (setting : Setting) (equations : Equations) : Except Fault State := do
  checkNames setting.objective equations.columns
  checked {
    tableau := ⟨objectiveRow equations.columns setting.objective :: equations.rows⟩
    columns := equations.columns
    basis := none :: equations.basis.map fun j : Nat => some (j : Int)
    goal := setting.goal }

end State

/-! ## Reading settings -/

namespace Setting

/-- A limit on pivots that is not negative. -/
def readLimit (limit : Int) : Except Fault Nat :=
  if limit < 0 then throw .negativeIterations else return limit.toNat

/-- A setting from its parts: the goal is looked at first, then the limit, the objective and the
offset. -/
def read (goal : String) (limit : Int) (objective : Named Operand) (offset : Operand)
    (tieBreak : TieBreak) : Except Fault Setting := do
  let some goal := Goal.ofText? goal | throw (.unknownDirection goal)
  let limit ← readLimit limit
  let objective ← readTerms objective
  let offset ← offset.value
  return { goal, objective, offset, limit, tieBreak }

end Setting

end ExactLP.Simplex
