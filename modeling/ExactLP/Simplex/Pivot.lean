import ExactLP.Simplex.State

/-!
# Simplex.Pivot — one pivot at a time

A step takes the column whose reduced cost is best, and of the rows with a positive entry there the one
with the least ratio of right side to entry.  Equal candidates are put before the tie-break.  Once a
right side has read zero, the first improving column and the first of the tied rows are taken instead.

* `entering`, `leaving`: the two choices.
* `pivot`: makes a column basic in a row, and refuses a tableau with a negative right side.
* `iterate`, `run`: one step, and steps up to an optimum, an unbounded column or the limit.
-/

namespace ExactLP.Simplex

/-- What a step finds. -/
inductive Progress where
  | intermediate | optimal | unbounded
deriving Repr, DecidableEq

def Progress.text : Progress → String
  | intermediate => "intermediate"
  | optimal => "optimal"
  | unbounded => "unbounded"

namespace State

/-- The reduced cost of a column, negative where the column improves the active goal. -/
def signedCost (s : State) (j : Nat) : Rat := s.tableau.entry 0 j * s.goal.sign

/-- The columns that would improve the active goal. -/
def improving (s : State) : List Nat :=
  s.columns.zipIdx.filterMap fun (c, j) =>
    if !c.eliminated && !c.role.isPseudo && s.signedCost j < 0 then some j else none

/-- The ratio of right side to entry for each row with a positive entry in a column. -/
def ratios (s : State) (j : Nat) : List (Rat × Nat) :=
  s.constraintRows.filterMap fun i =>
    let entry := s.tableau.entry i j
    if 0 < entry then some (s.tableau.lastEntry i / entry, i) else none

/-- Some right side of a constraint row is zero. -/
def hasZeroRhs (s : State) : Bool := s.constraintRows.any fun i => s.tableau.lastEntry i == 0

/-- The first constraint row with a negative right side, and that side. -/
def negativeRhs? (s : State) : Option Corruption :=
  s.constraintRows.findSome? fun i =>
    let value := s.tableau.lastEntry i
    if value < 0 then some (.negativeRhs value i) else none

end State

/-- The least of some numbers, starting from one of them. -/
def least (first : Rat) (rest : List Rat) : Rat :=
  rest.foldl (fun best x => if x < best then x else best) first

/-! ## Choices -/

/-- Puts candidates before the tie-break. -/
def choose (setting : Setting) (candidates : List Nat) : Step Nat := do
  let s ← get
  set { s with offered := s.offered ++ [candidates] }
  return setting.tieBreak s.offered candidates

/-- Marks the state as degenerate once some right side is zero. -/
def latchDegeneracy : Step Unit :=
  modify fun s => if s.hasZeroRhs then { s with degenerate := true } else s

/-- The column to enter the basis, if one improves the active goal. -/
def entering (setting : Setting) : Step (Option Nat) := do
  let s ← get
  match s.improving with
  | [] => return none
  | j :: rest =>
    if s.degenerate then return some j
    else
      let best := least (s.signedCost j) (rest.map s.signedCost)
      return some (← choose setting ((j :: rest).filter fun i => s.signedCost i == best))

/-- The row to leave the basis for a column, if some row bounds that column. -/
def leaving (setting : Setting) (j : Nat) : Step (Option Nat) := do
  let s ← get
  match s.ratios j with
  | [] => return none
  | (ratio, i) :: rest =>
    let best := least ratio (rest.map Prod.fst)
    let tied := ((ratio, i) :: rest).filterMap fun (r, k) => if r == best then some k else none
    if s.degenerate then return tied.head?
    else return some (← choose setting tied)

/-! ## Pivots -/

/-- Replaces the tableau by what a function makes of it. -/
def onTableau (f : Grid → Except Fault Grid) : Step Unit := do
  let s ← get
  set { s with tableau := ← f s.tableau }

/-- Replaces the state by what a function makes of it. -/
def onState (f : State → Except Fault State) : Step Unit := do
  set (← f (← get))

/-- Makes a column basic in a row: the row is scaled to read one in that column, the column is cancelled
in every other row, and the basis notes it. -/
def pivot (row column : Int) : Step Unit := do
  onTableau fun g => g.divideToOne row column
  let s ← get
  (List.range s.tableau.rowCount).forM fun i =>
    if (i : Int) = row then pure () else onTableau fun g => g.zeroOut i row column
  onState fun s => s.setBasis row (some column)
  modify fun s => { s with pivots := s.pivots ++ [(row, column)] }
  let s ← get
  let _ ← s.column column
  match s.negativeRhs? with
  | some what => throw (.corrupted what)
  | none => return ()

/-- One step; without leave to pivot, a column that would enter is a fault. -/
def iterate (setting : Setting) (mayPivot : Bool) : Step Progress := do
  latchDegeneracy
  match ← entering setting with
  | none => return .optimal
  | some j =>
    if !mayPivot then
      let s ← get
      throw (.refusing .iterationLimit s!"phase {s.phase.number} after {setting.limit} pivots" none)
    match ← leaving setting j with
    | none => return .unbounded
    | some i =>
      pivot i j
      return .intermediate

/-- Steps until none is left to take, at most `limit` of them with a pivot. -/
def run (setting : Setting) : Nat → Step Progress
  | 0 => iterate setting false
  | limit + 1 => do
    match ← iterate setting true with
    | .intermediate => run setting limit
    | found => return found

end ExactLP.Simplex
