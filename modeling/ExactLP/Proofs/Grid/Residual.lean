import ExactLP.Proofs.Grid.Entries
import Mathlib.Algebra.BigOperators.Field
import Mathlib.Algebra.Order.BigOperators.Ring.Finset
import Mathlib.Tactic.Linarith

/-!
# Proofs.Grid.Residual — the rows of a tableau as equations

The last column of a tableau holds right sides.  A row of `n` coefficients has a `residual` at a point:
what its left side exceeds its right side by.  Row 0 is the objective row, rows 1 to `m` are the
constraints, and a point `Solves` a tableau when the constraint rows have residual zero there.

* `residual_sub`, `residual_div`: row operations act on residuals as they act on entries.
* `SameSystem`: two tableaus with the same solutions, at which their objective rows agree.
* `Prices`: at every solution the objective row stands for minus a weighted sum.
-/

open Finset

namespace ExactLP

/-- A number for every column, by position. -/
abbrev ColumnPoint := Nat → Rat

namespace Grid

variable {g g' g'' : Grid} {m n i k : Nat} {x : ColumnPoint} {w : Nat → Rat}

/-- What the left side of row `i`, over `n` columns, exceeds its right side by. -/
def residual (g : Grid) (n i : Nat) (x : ColumnPoint) : Rat :=
  ∑ j ∈ range n, g.entry i j * x j - g.entry i n

/-- The constraint rows 1 to `m` hold at a point. -/
def Solves (g : Grid) (m n : Nat) (x : ColumnPoint) : Prop :=
  ∀ i, 1 ≤ i → i ≤ m → g.residual n i x = 0

/-- The objective row stands for minus the weighted sum of the columns, at every solution. -/
def Prices (g : Grid) (m n : Nat) (w : Nat → Rat) : Prop :=
  ∀ x, g.Solves m n x → g.residual n 0 x = -∑ j ∈ range n, w j * x j

/-- Two tableaus have the same solutions, and at these the same value in their objective rows. -/
structure SameSystem (g g' : Grid) (m n : Nat) : Prop where
  solves_iff : ∀ x, g.Solves m n x ↔ g'.Solves m n x
  cost_eq : ∀ x, g.Solves m n x → g.residual n 0 x = g'.residual n 0 x

/-! ## Residuals under row operations -/

section Residual

theorem residual_congr (h : ∀ l, g'.entry i l = g.entry k l) (n : Nat) (x : ColumnPoint) :
    g'.residual n i x = g.residual n k x := by
  simp only [residual, h]

theorem residual_sub {c : Rat} (h : ∀ l, g'.entry i l = g.entry i l - c * g.entry k l) (n : Nat)
    (x : ColumnPoint) : g'.residual n i x = g.residual n i x - c * g.residual n k x := by
  have hsum : ∑ j ∈ range n, g'.entry i j * x j =
      ∑ j ∈ range n, g.entry i j * x j - c * ∑ j ∈ range n, g.entry k j * x j := by
    rw [mul_sum, ← sum_sub_distrib]
    exact sum_congr rfl fun j _ => by rw [h j]; ring
  rw [residual, hsum, h n, residual, residual]
  ring

theorem residual_div {c : Rat} (h : ∀ l, g'.entry i l = g.entry i l / c) (n : Nat) (x : ColumnPoint) :
    g'.residual n i x = g.residual n i x / c := by
  have hsum : ∑ j ∈ range n, g'.entry i j * x j = (∑ j ∈ range n, g.entry i j * x j) / c := by
    rw [sum_div]
    exact sum_congr rfl fun j _ => by rw [h j]; ring
  rw [residual, hsum, h n, residual]
  ring

/-- Entries that differ only where a point is zero leave the residual at the point. -/
theorem residual_congr_of_zero (hrhs : g'.entry i n = g.entry i n)
    (h : ∀ j < n, g'.entry i j = g.entry i j ∨ x j = 0) : g'.residual n i x = g.residual n i x := by
  rw [residual, residual, hrhs]
  congr 1
  apply sum_congr rfl
  intro j hj
  rcases h j (mem_range.mp hj) with he | hx
  · rw [he]
  · rw [hx, mul_zero, mul_zero]

/-- A row that is zero wherever a point is not, and on the right side, holds at the point. -/
theorem residual_eq_zero (hrhs : g.entry i n = 0) (h : ∀ j < n, g.entry i j = 0 ∨ x j = 0) :
    g.residual n i x = 0 := by
  rw [residual, hrhs, sub_zero]
  apply sum_eq_zero
  intro j hj
  rcases h j (mem_range.mp hj) with he | hx
  · rw [he, zero_mul]
  · rw [hx, mul_zero]

end Residual

/-! ## Same systems -/

section SameSystem

theorem SameSystem.refl (g : Grid) (m n : Nat) : g.SameSystem g m n :=
  ⟨fun _ => Iff.rfl, fun _ _ => rfl⟩

theorem SameSystem.symm (h : g.SameSystem g' m n) : g'.SameSystem g m n :=
  ⟨fun x => (h.solves_iff x).symm, fun x hx => (h.cost_eq x ((h.solves_iff x).mpr hx)).symm⟩

theorem SameSystem.trans (h : g.SameSystem g' m n) (h' : g'.SameSystem g'' m n) :
    g.SameSystem g'' m n :=
  ⟨fun x => (h.solves_iff x).trans (h'.solves_iff x),
    fun x hx => (h.cost_eq x hx).trans (h'.cost_eq x ((h.solves_iff x).mp hx))⟩

theorem Prices.of_sameSystem (hw : g.Prices m n w) (h : g.SameSystem g' m n) : g'.Prices m n w := by
  intro x hx
  have hxg := (h.solves_iff x).mpr hx
  rw [← h.cost_eq x hxg, hw x hxg]

/-- Constraint rows that are the same entry by entry have the same solutions. -/
theorem solves_congr (h : ∀ i, 1 ≤ i → i ≤ m → ∀ l, g'.entry i l = g.entry i l) (x : ColumnPoint) :
    g'.Solves m n x ↔ g.Solves m n x := by
  refine forall_congr' fun i => forall_congr' fun h1 => forall_congr' fun h2 => ?_
  rw [residual_congr (h i h1 h2)]

/-- Subtracting a multiple of a constraint row from the objective row changes nothing at solutions. -/
theorem sameSystem_of_cancel {c : Rat} (hk : 1 ≤ k ∧ k ≤ m)
    (h0 : ∀ l, g'.entry 0 l = g.entry 0 l - c * g.entry k l)
    (h : ∀ i ≠ 0, ∀ l, g'.entry i l = g.entry i l) : g.SameSystem g' m n where
  solves_iff x := (solves_congr (fun i h1 _ => h i (by omega)) x).symm
  cost_eq x hx := by rw [residual_sub h0, hx k hk.1 hk.2, mul_zero, sub_zero]

end SameSystem

/-! ## Pivots -/

/-- `g'` is `g` after a pivot on row `r` and column `c`: the row is divided by its entry there, and the
column is cancelled in every other row. -/
structure PivotOf (g g' : Grid) (h w r c : Nat) : Prop where
  shaped : g'.Shaped h w
  pivotRow : ∀ l, g'.entry r l = g.entry r l / g.entry r c
  otherRow : ∀ k ≠ r, k < h → ∀ l, g'.entry k l = g.entry k l - g.entry k c / g.entry r c * g.entry r l

section Pivot

variable {r c h w : Nat}

theorem PivotOf.residual_pivotRow (hp : g.PivotOf g' h w r c) (n : Nat) (x : ColumnPoint) :
    g'.residual n r x = g.residual n r x / g.entry r c :=
  residual_div hp.pivotRow n x

theorem PivotOf.residual_otherRow (hp : g.PivotOf g' h w r c) (hk : k ≠ r) (hkh : k < h) (n : Nat)
    (x : ColumnPoint) :
    g'.residual n k x = g.residual n k x - g.entry k c / g.entry r c * g.residual n r x :=
  residual_sub (hp.otherRow k hk hkh) n x

/-- A pivot on an entry that is not zero keeps the system. -/
theorem PivotOf.sameSystem (hp : g.PivotOf g' (m + 1) w r c) (hr : 1 ≤ r ∧ r ≤ m)
    (hne : g.entry r c ≠ 0) : g.SameSystem g' m n where
  solves_iff x := by
    constructor
    · intro hx i h1 h2
      have hr0 := hx r hr.1 hr.2
      by_cases hi : i = r
      · rw [hi, hp.residual_pivotRow, hr0, zero_div]
      · rw [hp.residual_otherRow hi (by omega), hr0, hx i h1 h2, mul_zero, sub_zero]
    · intro hx i h1 h2
      have hr0 : g.residual n r x = 0 := by
        have h0 := hx r hr.1 hr.2
        rw [hp.residual_pivotRow, div_eq_zero_iff] at h0
        exact h0.resolve_right hne
      by_cases hi : i = r
      · rw [hi, hr0]
      · have hi0 := hx i h1 h2
        rwa [hp.residual_otherRow hi (by omega), hr0, mul_zero, sub_zero] at hi0
  cost_eq x hx := by
    rw [hp.residual_otherRow (by omega) (by omega), hx r hr.1 hr.2, mul_zero, sub_zero]

theorem PivotOf.entry_self (hp : g.PivotOf g' h w r c) (hne : g.entry r c ≠ 0) : g'.entry r c = 1 := by
  rw [hp.pivotRow, div_self hne]

theorem PivotOf.entry_column (hp : g.PivotOf g' h w r c) (hk : k ≠ r) (hkh : k < h)
    (hne : g.entry r c ≠ 0) : g'.entry k c = 0 := by
  rw [hp.otherRow k hk hkh, div_mul_cancel₀ _ hne, sub_self]

/-- A column that is zero in the pivot row stays as it is. -/
theorem PivotOf.entry_of_zero (hp : g.PivotOf g' h w r c) (hkh : k < h) {b : Nat}
    (hb : g.entry r b = 0) : g'.entry k b = g.entry k b := by
  by_cases hk : k = r
  · rw [hk, hp.pivotRow, hb, zero_div]
  · rw [hp.otherRow k hk hkh, hb, mul_zero, sub_zero]

end Pivot

end Grid

end ExactLP
