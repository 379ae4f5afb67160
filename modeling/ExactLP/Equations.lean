import ExactLP.Standard.Split

/-!
# Equations — rows as equations in nonnegative columns

`Equations` hold the rows of a problem as equations: a coefficient for every column and the right side
last.  `Equations.ofRows` gives every row auxiliary columns and makes one of them basic:

* `<`, `<=`: a surplus column, which is basic;
* `>`, `>=`: an excess column with -1 and an artificial one, which is basic;
* `=`: a pseudo column with -1 and an artificial one, which is basic.

Pseudo and artificial columns stand for nothing that a solution may use.
-/

namespace ExactLP

/-- What a column stands for.  Parts of a split variable know it and auxiliaries know their row's label,
unless a column comes without. -/
inductive Role where
  | decision
  | positivePart (of : Option String)
  | negativePart (of : Option String)
  | condition
  | surplus (label : Option String)
  | excess (label : Option String)
  | pseudo (label : Option String)
  | artificial (label : Option String)
deriving Repr, DecidableEq

namespace Role

def isArtificial : Role → Bool
  | artificial _ => true
  | _ => false

def isPseudo : Role → Bool
  | pseudo _ => true
  | _ => false

/-- The columns that no solution may use. -/
def isForbidden (r : Role) : Bool := r.isArtificial || r.isPseudo

/-- The variable or the label that a column comes from. -/
def origin? : Role → Option String
  | positivePart x | negativePart x | surplus x | excess x | pseudo x | artificial x => x
  | decision | condition => none

end Role

/-- A tableau column.  An internal one belongs to a row that the solver added. -/
structure Column where
  name : String
  role : Role
  internal : Bool := false
  eliminated : Bool := false
deriving Repr, DecidableEq

/-- Equations over columns, the right side last in each row, and the basic column of each. -/
structure Equations where
  rows : List (List Rat)
  columns : List Column
  basis : List Nat
deriving DecidableEq

namespace Equations

/-- The column of a variable: a part of a split variable, a condition binary or a decision. -/
def variableColumn (condition split : List String) (name : String) : Column :=
  match split.find? fun x => ExactLP.positivePart x == name || ExactLP.negativePart x == name with
  | some x =>
    let role := if ExactLP.positivePart x = name then Role.positivePart (some x) else .negativePart (some x)
    ⟨name, role, false, false⟩
  | none => ⟨name, if condition.contains name then .condition else .decision, false, false⟩

/-- The auxiliary columns of a row and their coefficients; the last one is basic. -/
def auxiliaries (cmp : Comparator) (label : String) (internal : Bool) : List (Column × Rat) :=
  let artificial : Column := ⟨s!"a_{label}", .artificial (some label), internal, false⟩
  match cmp with
  | .eq => [(⟨s!"p_{label}", .pseudo (some label), internal, false⟩, -1), (artificial, 1)]
  | .lt | .le => [(⟨s!"s_{label}", .surplus (some label), internal, false⟩, 1)]
  | .gt | .ge => [(⟨s!"e_{label}", .excess (some label), internal, false⟩, -1), (artificial, 1)]

/-- The auxiliaries of all rows; an unnamed row is labelled by its place, counted from 1. -/
def allAuxiliaries (rows : List Row) (internalFrom : Option Int) : List (List (Column × Rat)) :=
  rows.mapIdx fun i row =>
    auxiliaries row.cmp (row.label.getD (toString (i + 1))) (internalFrom.any fun start => start ≤ (i : Int))

/-- The position of each row's last auxiliary, where `start` columns come before. -/
def basicPositions (start : Nat) : List (List (Column × Rat)) → List Nat
  | [] => []
  | own :: rest => (start + own.length - 1) :: basicPositions (start + own.length) rest

/-- The coefficients of one row: its form over the unknowns, then nothing or its own auxiliaries for
each row, then its right side. -/
def equation (unknowns : List String) (aux : List (List (Column × Rat))) (i : Nat) (row : Row) : List Rat :=
  unknowns.map row.terms.coefficient ++
    (aux.mapIdx fun j own => own.map fun (_, c) => if i = j then c else 0).flatten ++ [row.rhs]

/-- The equations of some rows.  Columns are the variables by first occurrence, those of the objective
first, and then the auxiliaries row by row; those of the rows from `internalFrom` on are internal. -/
def ofRows (objective : List String) (rows : List Row) (condition split : List String)
    (internalFrom : Option Int) : Except Fault Equations := do
  let rows := rows.map Row.normalized
  let unknowns := firstOccurrences (objective ++ rows.flatMap Row.names)
  let aux := allAuxiliaries rows internalFrom
  let columns := unknowns.map (variableColumn condition split) ++ aux.flatten.map Prod.fst
  if (firstOccurrences (columns.map Column.name)).length ≠ columns.length then throw .duplicateColumns
  return ⟨rows.mapIdx (equation unknowns aux), columns, basicPositions unknowns.length aux⟩

end Equations

end ExactLP
