import ExactLP.Standard.Split
import ExactLP.Standard.Compiler

/-!
# Standard.Form — a problem's constraints as plain rows

The standard form of a list of constraints: plain rows first, over the parts of unrestricted variables
and tightened where they are integral, and after them the rows of the logical forms.  Names that start
like condition binaries are refused.
-/

namespace ExactLP

/-- Plain rows, the condition binaries in them and the variables that were split. -/
structure StandardForm where
  rows : List Row
  condition : List String := []
  split : List String := []
deriving DecidableEq

/-- The names declared or used that start like condition binaries, in ascending order. -/
def reservedNames (constraints : List Constraint) (declared : List String) : List String :=
  let used := constraints.flatMap fun c => c.operands.flatMap Row.names
  let reserved := (declared ++ used).filter fun name => conditionStem.toList.isPrefixOf name.toList
  (firstOccurrences reserved).mergeSort fun a b => !(b.toList.map Char.toNat < a.toList.map Char.toNat)

/-- The names whose values are integers: both parts of an integer that is split are. -/
def integralNames (binary integer split : List String) : List String :=
  split.foldl (fun names name =>
    if name ∈ names then names ++ [positivePart name, negativePart name] else names) (binary ++ integer)

/-- The plain rows among some constraints. -/
def plainRows (constraints : List Constraint) : List Row :=
  constraints.filterMap fun
    | .plain row => some row
    | _ => none

/-- The standard form.  Without `splitting`, unrestricted variables stay as they are; a binary one is
never split. -/
def standardize (constraints : List Constraint) (binary integer unrestricted : List String)
    (splitting : Bool) : Except Fault StandardForm := do
  let reserved := reservedNames constraints (binary ++ integer ++ unrestricted)
  if !reserved.isEmpty then throw (.reservedNames reserved)
  let split := if splitting then unrestricted.filter fun name => !binary.contains name else []
  let integral := integralNames binary integer split
  let parts := constraints.map fun c => c.mapRows fun r => r.split split
  let rows := (plainRows parts).map fun r => r.tighten integral
  let compiler : Compiler := ⟨rows, binary, integral⟩
  let (derived, condition) := (compiler.compileAll 0 parts).run []
  return ⟨rows ++ (← derived), condition, split⟩

/-- The standard form of a problem. -/
def Problem.standardForm (p : Problem) (splitting : Bool) : Except Fault StandardForm :=
  standardize p.constraints p.binary p.integer p.unrestricted splitting

end ExactLP
