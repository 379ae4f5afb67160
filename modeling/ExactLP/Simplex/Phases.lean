import ExactLP.Simplex.Pivot

/-!
# Simplex.Phases — from a first basis to an optimum

With artificial columns a run has two phases.  The first minimizes their sum, and the problem is
infeasible when that stays positive.  The transition then removes what phase one showed to be useless:
columns that are not basic and artificial or of negative cost, artificial columns that are still basic
at level zero, and rows that have become redundant.  The second phase optimizes the objective.

* `startPhaseOne`, `startPhaseTwo`: the objective row before the first pivot of a phase.
* `phaseOne`, `transition`, `solve`: the whole run.
* `render`: the tableau as a text table.
-/

namespace ExactLP.Simplex

/-- Runs a step for each constraint row of the tableau. -/
def forConstraintRows (f : Nat → Step Unit) : Step Unit := do
  (← get).constraintRows.forM f

/-! ## Phase one -/

/-- The objective row of phase one, before its basic columns are cancelled. -/
def artificialRow (columns : List Column) : List Rat :=
  (columns.map fun c => if c.role.isArtificial then -1 else 0) ++ [0]

/-- Cancels the cost of an artificial column that is basic in a row. -/
def cancelArtificial (row : Nat) : Step Unit := do
  let s ← get
  match ← s.basisEntry row with
  | none => return ()
  | some j =>
    let c ← s.column j
    if c.role.isArtificial then onTableau fun g => g.zeroOut 0 row j

/-- Makes the sum of the artificial columns the goal, and cancels the costs of those that are basic. -/
def startPhaseOne : Step Unit := do
  modify fun s => { s with phase := .one, goal := .minimize }
  onState fun s => do return { s with tableau := ← s.tableau.setRow 0 (artificialRow s.columns) }
  forConstraintRows cancelArtificial

/-- Minimizes the sum of the artificial columns, and refuses a problem where it stays positive. -/
def phaseOne (setting : Setting) : Step Unit := do
  startPhaseOne
  match ← run setting setting.limit with
  | .unbounded => throw (.refusing .notOptimal "phase 1 objective is unbounded" none)
  | _ =>
    let infeasibility := (← get).tableau.lastEntry 0
    if 0 < infeasibility then
      throw (.refusing .infeasible s!"phase 1 ended with infeasibility {exactText infeasibility}" none)

/-! ## Transition -/

/-- Sets a column to zero and marks it as eliminated. -/
def eliminate (index : Int) : Step Unit := do
  onTableau fun g => g.fillColumn index 0
  modify fun s =>
    match resolveIndex index s.columns.length with
    | some j => { s with columns := s.columns.modify j fun c => { c with eliminated := true } }
    | none => s

/-- Eliminates the columns that are not basic and are artificial or have a negative cost. -/
def eliminateUseless : Step Unit := do
  let s ← get
  s.columns.zipIdx.forM fun (c, j) =>
    if s.basis.contains (some (j : Int)) then pure ()
    else if c.role.isArtificial || s.tableau.entry 0 j < 0 then eliminate j
    else pure ()

/-- The first column that can take the place of an artificial one in a row. -/
def State.replacement? (s : State) (row : Nat) : Option Nat :=
  s.columns.zipIdx.findSome? fun (c, j) =>
    if !c.eliminated && !c.role.isForbidden && s.tableau.entry row j != 0 then some j else none

/-- Removes an artificial column that is basic in a row: another column takes its place, or the row is
redundant and is dropped. -/
def removeArtificial (row : Nat) : Step Unit := do
  let s ← get
  match ← s.basisEntry row with
  | none => return ()
  | some j =>
    let c ← s.column j
    if c.role.isArtificial then
      match s.replacement? row with
      | some k => pivot row k
      | none =>
        onTableau fun g => g.fillRow row 0
        onState fun s => s.setBasis row none
      eliminate j

/-- Cancels the cost of the basic column of a row. -/
def cancelBasic (row : Nat) : Step Unit := do
  match ← (← get).basisEntry row with
  | none => return ()
  | some j => onTableau fun g => g.zeroOut 0 row j

/-- Restores the objective, and cancels the costs of the basic columns. -/
def startPhaseTwo (setting : Setting) : Step Unit := do
  modify fun s => { s with phase := .two, goal := setting.goal }
  onState fun s => do
    return { s with tableau := ← s.tableau.setRow 0 (State.objectiveRow s.columns setting.objective) }
  forConstraintRows cancelBasic

/-- Drops the artificial columns and restores the objective. -/
def transition (setting : Setting) : Step Unit := do
  eliminateUseless
  forConstraintRows removeArtificial
  startPhaseTwo setting

/-! ## The whole run -/

/-- The solution that the current tableau stands for. -/
def State.solution (s : State) (offset : Rat) : Except Fault Solution :=
  Solution.ofTableau s.tableau s.columns s.basis (.fraction offset.num offset.den)

/-- Solves the problem, or refuses it as infeasible, unbounded or too long. -/
def solve (setting : Setting) : Step Solution := do
  if (← get).hasArtificials then
    phaseOne setting
    transition setting
  else modify fun s => { s with phase := .two }
  match ← run setting setting.limit with
  | .unbounded => throw .unbounded
  | _ =>
    let s ← get
    s.checkBasis
    s.solution setting.offset

/-! ## Texts -/

/-- The label of a row: the name of its basic column, or a dash. -/
def State.rowLabel (s : State) : Option Int → Except Fault String
  | none => return "-"
  | some j => return (← s.column j).name

/-- The tableau as a text table with basis labels. -/
def State.render (s : State) : Except Fault String := do
  let labels ← s.basis.tail.mapM s.rowLabel
  return s.tableau.render ("z" :: labels) (s.columns.map Column.name ++ ["RHS"])

end ExactLP.Simplex
