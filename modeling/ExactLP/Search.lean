import ExactLP.Simplex.Phases
import ExactLP.Standard.Form

/-!
# Search — depth-first branch and bound

A search solves a problem with binary and integer variables by relaxations: problems without the
integrality, solved exactly and from scratch.  A relaxation whose solution is fractional somewhere is
split by two branch rows, of which the later is explored first.

* `Search.prepare`: the standard form of a problem and what must be integral.
* `relax`: one relaxation with extra rows; `selectBranch`: the two branches of a fractional solution.
* `explore`, `run`, `solve`: the search, up to the budget of nodes or the target.
-/

namespace ExactLP

open Simplex (TieBreak)

/-- How a search is run. -/
structure SearchOptions where
  maxBranches : Int := 200
  maxIterations : Int := 500
  tieBreak : TieBreak
  /-- Binary variables get a row that keeps them at most 1. -/
  boundBinaries : Bool := true

/-- A problem made ready for a search. -/
structure Search where
  problem : Problem
  form : StandardForm
  /-- The binary variables, the condition binaries included. -/
  binary : List String
  /-- The integer variables that are not binary. -/
  integer : List String
  /-- The objective over the parts of split variables. -/
  objective : Terms
  options : SearchOptions

/-- A relaxation that was tried: its extra rows, the pivots made, and its objective or why there is
none. -/
structure Relaxation where
  extra : List Row
  pivots : List (Int × Int)
  outcome : Except Fault Rat

/-- What a search changes. -/
structure SearchState where
  /-- How many branch rows have been named. -/
  branchRows : Nat := 0
  visited : Nat := 0
  offered : List (List Nat) := []
  relaxations : List Relaxation := []

/-- Computations of a search; the state stays when one fails. -/
abbrev Searching := ExceptT Fault (StateM SearchState)

/-- A node of the search: how deep it lies, and the branch rows on the way to it. -/
structure Node where
  level : Int
  rows : List Row
deriving DecidableEq

/-- A node as a text. -/
def Node.written (node : Node) : Except NumberFault String := do
  let rows ← node.rows.mapM Row.written
  return s!"Node(L:{node.level}, rows:{Text.quoteList rows})"

/-- The two nodes below a node, the one to explore first in front. -/
def Node.branch (node : Node) (branches : Row × Row) : List Node :=
  [⟨node.level + 1, node.rows ++ [branches.2]⟩, ⟨node.level + 1, node.rows ++ [branches.1]⟩]

/-- Why an exploration ended. -/
inductive Ending where
  /-- No node was left open. -/
  | exhausted
  /-- The incumbent reached the target. -/
  | reached
  /-- The budget was used up while nodes were still open. -/
  | cutOff
deriving Repr, DecidableEq

/-- What an exploration leaves: the best solution found, and why no more was looked for. -/
structure Exploration where
  incumbent : Option Solution
  ending : Ending

namespace Search

/-- Makes a problem ready for a search. -/
def prepare (problem : Problem) (options : SearchOptions) : Except Fault Search := do
  if options.maxBranches < 0 then throw .negativeBranches
  let form ← problem.standardForm true
  let binary := firstOccurrences (problem.binary ++ form.condition)
  let integer := (firstOccurrences problem.integer).filter fun name => !binary.contains name
  return { problem, form, binary, integer, objective := problem.objective.split form.split, options }

variable (b : Search)

/-- Some variable must be integral. -/
def needsIntegrality : Bool := !(b.binary.isEmpty && b.integer.isEmpty)

/-- The objective takes only integer values at integral points. -/
def integralObjective : Bool :=
  b.problem.offset.den == 1 &&
    b.problem.objective.all fun (name, c) => (b.binary.contains name || b.integer.contains name) && c.den == 1

/-! ## Relaxations -/

/-- The rows that keep binaries at most 1. -/
def binaryRows : List Row :=
  if b.options.boundBinaries then b.binary.map fun name => Row.of [(name, 1)] .le 1 none else []

/-- The equations of the problem with extra rows; only the problem's own rows are reported on. -/
def equations (extra : List Row) : Except Fault Equations :=
  Equations.ofRows b.objective.names (b.form.rows ++ b.binaryRows ++ extra) b.form.condition b.form.split
    (some b.form.rows.length)

/-- How the relaxations are solved. -/
def setting : Except Fault Simplex.Setting := do
  return {
    goal := b.problem.goal
    objective := b.objective
    offset := b.problem.offset
    limit := ← Simplex.Setting.readLimit b.options.maxIterations
    tieBreak := b.options.tieBreak }

/-- How the relaxation with extra rows is solved, and its state before the first pivot. -/
def start (extra : List Row) : Except Fault (Simplex.Setting × Simplex.State) := do
  let equations ← b.equations extra
  let setting ← b.setting
  return (setting, ← Simplex.State.ofEquations setting equations)

/-- The solution of the relaxation with extra rows, the pivots made, and the candidates offered up to
its end. -/
def relaxed (extra : List Row) (offered : List (List Nat)) :
    Except Fault Solution × List (Int × Int) × List (List Nat) :=
  match b.start extra with
  | .error fault => (.error fault, [], offered)
  | .ok (setting, state) =>
    let (result, last) := (Simplex.solve setting).run { state with offered }
    (result, last.pivots, last.offered)

/-- Solves a relaxation and notes it. -/
def relax (extra : List Row) : Searching Solution := do
  let s ← get
  let (result, pivots, offered) := b.relaxed extra s.offered
  let noted : Relaxation := ⟨extra, pivots, result.map Solution.objective⟩
  set { s with offered, relaxations := s.relaxations ++ [noted] }
  result

/-! ## Branching -/

/-- A label for a branch row that no other has. -/
def nextLabel : Searching String := do
  let s ← get
  set { s with branchRows := s.branchRows + 1 }
  return s!"branch{s.branchRows + 1}"

/-- The rows that part the integral values of a variable around a value. -/
def branchRows (name : String) (value : Rat) : Searching (Row × Row) := do
  let terms := Terms.split [(name, 1)] b.form.split
  let first ← nextLabel
  let second ← nextLabel
  if b.binary.contains name then
    return (Row.of terms .eq 0 (some first), Row.of terms .eq 1 (some second))
  else
    return (Row.of terms .le value.floor (some first), Row.of terms .ge value.ceil (some second))

/-- The first variable whose value is not what it must be, binaries first. -/
def fractional? (s : Solution) : Option String :=
  match b.binary.find? fun name => s.value name != 0 && s.value name != 1 with
  | some name => some name
  | none => b.integer.find? fun name => (s.value name).den != 1

/-- The two branches at a solution, unless its values are integral where they must be. -/
def selectBranch (s : Solution) : Searching (Option (Row × Row)) :=
  match b.fractional? s with
  | some name => return some (← b.branchRows name (s.value name))
  | none => return none

/-! ## The search -/

/-- The first value is better than the second for the problem's goal. -/
def isBetter (value than : Rat) : Bool := than * b.problem.goal.sign < value * b.problem.goal.sign

/-- The best integer on the feasible side of the root bound. -/
def roundedBound (root : Rat) : Rat :=
  match b.problem.goal with
  | .maximize => root.floor
  | .minimize => root.ceil

/-- The incumbent's objective is good enough: it reaches the threshold's fraction of the root bound, or
an integral objective reaches the rounded root bound. -/
def reachedTarget (root incumbent : Rat) : Bool :=
  let sign : Rat := b.problem.goal.sign
  b.problem.threshold.any (fun t => root * sign * t.value ≤ incumbent * sign) ||
    (b.integralObjective && incumbent == b.roundedBound root)

/-- Runs a computation and gives its fault as a value. -/
def attempt {α : Type} (x : Searching α) : Searching (Except Fault α) :=
  ExceptT.mk (do return .ok (← x.run))

/-- Explores open nodes, the first of them first, up to a budget of nodes. -/
def explore (root : Rat) : Nat → List Node → Option Solution → Searching Exploration
  | _, [], incumbent => return ⟨incumbent, .exhausted⟩
  | 0, _ :: _, incumbent => return ⟨incumbent, .cutOff⟩
  | budget + 1, node :: rest, incumbent => do
    modify fun s => { s with visited := s.visited + 1 }
    match ← attempt (b.relax node.rows) with
    | .error fault =>
      if fault.kind = .refused .infeasible then explore root budget rest incumbent else throw fault
    | .ok found =>
      if incumbent.any fun best => !b.isBetter found.objective best.objective then
        explore root budget rest incumbent
      else
        match ← b.selectBranch found with
        | some branches => explore root budget (node.branch branches ++ rest) incumbent
        | none =>
          if b.reachedTarget root found.objective then return ⟨some found, .reached⟩
          else explore root budget rest (some found)

/-- Solves the root relaxation and explores below it.  A root that is integral where it must be is the
incumbent at once. -/
def run : Searching Exploration := do
  let root ← b.relax []
  let branches ← if b.needsIntegrality then b.selectBranch root else pure none
  match branches with
  | none => return ⟨some root, .exhausted⟩
  | some branches =>
    let budget := b.options.maxBranches.toNat - (← get).visited
    b.explore root.objective budget (Node.branch ⟨0, []⟩ branches) none

/-- Solves the problem: the incumbent without its condition binaries. -/
def solve : Searching Solution := do
  match (← b.run).incumbent with
  | some best => return best.without b.form.condition
  | none => throw (.refusing .noIntegerSolution s!"after {(← get).visited} branches" none)

end Search

/-- Solves a problem with a search of its own. -/
def Problem.solve (p : Problem) (options : SearchOptions) : Except Fault Solution := do
  let search ← Search.prepare p options
  (search.solve.run {}).1

end ExactLP
