import ExactLP.Proofs.Equations.Layout
import ExactLP.Proofs.Grid.Residual

/-!
# Proofs.Equations.Feasible — the points that equations allow

* `Feasible`: the nonnegative points that satisfy every equation and are zero on the pseudo and the
  artificial columns.
* `value`: what an objective makes of a point.
-/

open Finset

namespace ExactLP.Equations

/-- A nonnegative point that satisfies every equation and is zero on the columns that stand for nothing. -/
structure Feasible (e : Equations) (x : ColumnPoint) : Prop where
  nonneg : ∀ j < e.columns.length, 0 ≤ x j
  zero : ∀ (j : Nat) (c : Column), e.columns[j]? = some c → c.role.isForbidden = true → x j = 0
  holds : ∀ row ∈ e.rows,
    ∑ j ∈ range e.columns.length, row.getD j 0 * x j = row.getD e.columns.length 0

/-- The value of a point: each column counts with the coefficient of its name. -/
def value (e : Equations) (objective : Terms) (x : ColumnPoint) : Rat :=
  ∑ j : Fin e.columns.length, objective.coefficient e.columns[j].name * x j

end ExactLP.Equations
