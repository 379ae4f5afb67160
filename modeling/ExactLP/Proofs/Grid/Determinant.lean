import ExactLP.Grid.Sheet
import ExactLP.Proofs.Runs
import Mathlib.Data.List.GetD
import Mathlib.LinearAlgebra.Matrix.Determinant.Basic

/-!
# Proofs.Grid.Determinant — the determinant is the sum over all permutations

A determinant is expanded along a line that is chosen by its zeros.  Whichever line that is, and however many
entries of it are passed over, the result is the signed sum over all permutations of the products of entries.  A
sheet that remembers its determinant remembers this one, since every edit that goes through forgets it.

* `matrix_withoutCross`: the minor of a grid is the minor of its matrix.
* `expansion_eq_det`: an expansion along any row or any column is the determinant.
* `determinantOf_eq_det`: so is the recursion, by induction on the size.
* `edit_run`, `unlessZero_run`: what an edit leaves, and one that is made only where an entry is not zero.
* `Reached.remembers`: what sheets remember after edits and questions, and `Reached.zeroOut`, that zeroing an entry is
  among them.
* `determinant_eq_leibniz`: what a square sheet answers with.
-/

open Finset

namespace ExactLP

/-- The line is one of the first `size` rows or columns. -/
def Line.Within : Line → Nat → Prop
  | .row r, size => r < size
  | .column c, size => c < size

namespace Grid

variable {g : Grid} {n i j a b : Nat} {line : Line}

/-- The first `n` entries of the first `n` rows, as a matrix. -/
def matrix (g : Grid) (n : Nat) : Matrix (Fin n) (Fin n) Rat := .of fun i j => g.entry i j

/-! ## Minors -/

section Minors

theorem getD_eraseIdx {α : Type} (xs : List α) (i a : Nat) (d : α) :
    (xs.eraseIdx i).getD a d = xs.getD (if a < i then a else a + 1) d := by
  rw [List.getD_eq_getElem?_getD, List.getElem?_eraseIdx, List.getD_eq_getElem?_getD]
  split <;> rfl

/-- Behind the row and the column that are left out the positions move up by one. -/
theorem entry_withoutCross (g : Grid) (i j a b : Nat) :
    entry ⟨withoutCross g.rows i j⟩ a b =
      g.entry (if a < i then a else a + 1) (if b < j then b else b + 1) := by
  have hline : line ⟨withoutCross g.rows i j⟩ a = (g.line (if a < i then a else a + 1)).eraseIdx j := by
    show ((g.rows.eraseIdx i).map fun row => row.eraseIdx j).getD a ([].eraseIdx j) = _
    rw [List.getD_map, getD_eraseIdx]
    rfl
  rw [entry, hline, getD_eraseIdx]
  rfl

theorem val_succAbove (i : Fin (n + 1)) (a : Fin n) :
    ((i.succAbove a : Fin (n + 1)) : Nat) = if (a : Nat) < i then (a : Nat) else a + 1 := by
  unfold Fin.succAbove
  by_cases h : (a : Nat) < i
  · rw [if_pos h, if_pos (Fin.lt_def.mpr h)]
    rfl
  · rw [if_neg h, if_neg fun hlt => h (Fin.lt_def.mp hlt)]
    rfl

/-- The minor of a grid is the minor of its matrix. -/
theorem matrix_withoutCross (g : Grid) (i j : Fin (n + 1)) :
    matrix ⟨withoutCross g.rows i j⟩ n = (g.matrix (n + 1)).submatrix i.succAbove j.succAbove := by
  ext a b
  show entry ⟨withoutCross g.rows i j⟩ a b = g.entry (i.succAbove a) (j.succAbove b)
  rw [entry_withoutCross, val_succAbove, val_succAbove]

end Minors

/-! ## Expansions -/

section Expansions

theorem placeSign_eq_pow (n : Nat) : placeSign n = (-1) ^ n := by
  unfold placeSign
  by_cases h : n % 2 = 0
  · rw [if_pos h, (Nat.even_iff.mpr h).neg_one_pow]
  · rw [if_neg h, (Nat.odd_iff.mpr (Nat.mod_two_ne_zero.mp h)).neg_one_pow]

/-- What entry `k` of a line adds, when `minor` gives the determinants of the minors. -/
def lineTerm (g : Grid) (line : Line) (minor : Nat → Nat → Rat) (k : Nat) : Rat :=
  placeSign ((Line.position line k).1 + (Line.position line k).2) *
    (g.entry (Line.position line k).1 (Line.position line k).2 *
      minor (Line.position line k).1 (Line.position line k).2)

/-- Entries that are zero may be passed over. -/
theorem foldl_lineTerm (g : Grid) (line : Line) (minor : Nat → Nat → Rat) (n : Nat) :
    (List.range n).foldl (fun total k =>
        let (i, j) := Line.position line k
        let scalar := g.entry i j
        if scalar = 0 then total else total + placeSign (i + j) * (scalar * minor i j)) 0 =
      ∑ k ∈ range n, g.lineTerm line minor k := by
  induction n with
  | zero => rfl
  | succ n ih =>
    rw [List.range_succ, List.foldl_append, ih, sum_range_succ, List.foldl_cons, List.foldl_nil, lineTerm]
    dsimp only
    split
    · rename_i hzero
      rw [hzero, zero_mul, mul_zero, add_zero]
    · rfl

/-- An expansion along any row or any column is the determinant. -/
theorem expansion_eq_det {minor : Nat → Nat → Rat} (hline : line.Within (n + 1))
    (hminor : ∀ i j : Fin (n + 1), minor i j = (matrix ⟨withoutCross g.rows i j⟩ n).det) :
    ∑ k ∈ range (n + 1), g.lineTerm line minor k = (g.matrix (n + 1)).det := by
  rw [sum_range]
  cases line with
  | row r =>
    rw [Matrix.det_succ_row (g.matrix (n + 1)) ⟨r, hline⟩]
    refine sum_congr rfl fun k _ => ?_
    rw [← matrix_withoutCross, ← hminor, mul_assoc, ← placeSign_eq_pow]
    rfl
  | column c =>
    rw [Matrix.det_succ_column (g.matrix (n + 1)) ⟨c, hline⟩]
    refine sum_congr rfl fun k _ => ?_
    rw [← matrix_withoutCross, ← hminor, mul_assoc, ← placeSign_eq_pow]
    rfl

end Expansions

/-! ## The line that is chosen -/

section Choice

theorem emptiestLine_within (g : Grid) (hsize : 1 < n) : (g.emptiestLine n).Within n := by
  have hbetter : ∀ (best : Line × Nat) (line : Line) (zeros : Nat), best.1.Within n → line.Within n →
      (if best.2 < zeros then (line, zeros) else best).1.Within n := by
    intro best line zeros hbest hline
    split
    · exact hline
    · exact hbest
  unfold emptiestLine
  dsimp only
  refine List.foldlRecOn (motive := fun best : Line × Nat => best.1.Within n) (List.range n) _ hsize ?_
  intro best hbest i hi
  have hi : i < n := List.mem_range.mp hi
  exact hbetter _ _ _ (hbetter _ _ _ hbest hi) hi

theorem expansionLine_within (g : Grid) (hsize : 1 < n) : (g.expansionLine n).Within n := by
  unfold expansionLine
  split
  · exact g.emptiestLine_within hsize
  · exact hsize

end Choice

/-! ## The determinant -/

section Determinant

/-- The closed forms and the recursion give the determinant of the matrix. -/
theorem determinantOf_eq_det (n : Nat) (g : Grid) : determinantOf n g = (g.matrix n).det := by
  induction n generalizing g with
  | zero => exact Matrix.det_fin_zero.symm
  | succ n ih =>
    match n with
    | 0 => exact (Matrix.det_fin_one (g.matrix 1)).symm
    | 1 => exact (Matrix.det_fin_two (g.matrix 2)).symm
    | n + 2 =>
      rw [determinantOf]
      refine (foldl_lineTerm g (g.expansionLine (n + 3))
        (fun i j => determinantOf (n + 2) ⟨withoutCross g.rows i j⟩) (n + 3)).trans ?_
      exact expansion_eq_det (g.expansionLine_within (by omega)) fun i j => ih _

end Determinant

end Grid

/-! ## Remembered determinants -/

namespace Sheet

variable {s t : Sheet} {r : Except Fault Unit}

section Remembered

/-- The sheets that edits and questions lead to from a fresh one, whether they go through or fail. -/
inductive Reached : Sheet → Prop
  | fresh (g : Grid) : Reached ⟨g, none⟩
  | edited {s t : Sheet} {f : Grid → Except Fault Grid} {r : Except Fault Unit} : Reached s →
      (edit f).run s = (r, t) → Reached t
  | asked {s t : Sheet} {r : Except Fault (Option Rat)} : Reached s → determinant.run s = (r, t) → Reached t
  | inverted {s t : Sheet} {r : Except Fault (Option Grid)} : Reached s → inverse.run s = (r, t) → Reached t

/-- What a sheet remembers is the determinant of its grid. -/
def Remembers (s : Sheet) : Prop := ∀ d, s.known = some d → s.grid.determinant? = some d

theorem edit_run (f : Grid → Except Fault Grid) (s : Sheet) :
    (edit f).run s = match f s.grid with
      | .ok g => (.ok (), ⟨g, none⟩)
      | .error fault => (.error fault, s) := by
  unfold edit
  rw [run_bind_of_ok (run_get s)]
  cases f s.grid <;> rfl

theorem edit_run_cases {f : Grid → Except Fault Grid} (h : (edit f).run s = (r, t)) : t = s ∨ t.known = none := by
  rw [edit_run] at h
  split at h
  · obtain rfl := (Prod.mk.inj h).2
    exact Or.inr rfl
  · exact Or.inl (Prod.mk.inj h).2.symm

theorem unlessZero_run (row column : Int) (x : Edit Unit) (s : Sheet) :
    (unlessZero row column x).run s = match s.grid.get row column with
      | .ok value => if value = 0 then (.ok (), s) else x.run s
      | .error fault => (.error fault, s) := by
  unfold unlessZero
  rw [run_bind_of_ok (run_get s)]
  cases hget : s.grid.get row column with
  | error fault => exact run_bind_of_error (run_lift _ _)
  | ok value =>
    rw [run_bind_of_ok (run_lift _ _)]
    dsimp only
    split <;> rfl

/-- An entry that is zero already leaves the sheet, and any other is zeroed by an edit. -/
theorem Reached.zeroOut {active reference column : Int} (h : Reached s)
    (hrun : (zeroOut active reference column).run s = (r, t)) : Reached t := by
  rw [Sheet.zeroOut, unlessZero_run] at hrun
  split at hrun
  · split at hrun
    · exact (Prod.mk.inj hrun).2 ▸ h
    · exact h.edited hrun
  · exact (Prod.mk.inj hrun).2 ▸ h

/-- A sheet that remembers nothing wrong answers with the determinant of its grid. -/
theorem Remembers.determinant_run (h : s.Remembers) :
    determinant.run s = (.ok s.grid.determinant?, ⟨s.grid, s.grid.determinant?⟩) := by
  obtain ⟨g, known⟩ := s
  cases known with
  | none => rfl
  | some d =>
    rw [h d rfl]
    rfl

/-- So does its inverse come from the determinant of its grid. -/
theorem Remembers.inverse_run (h : s.Remembers) :
    inverse.run s = (.ok s.grid.inverse?, ⟨s.grid, s.grid.determinant?⟩) := by
  unfold inverse
  rw [run_bind_of_ok h.determinant_run, Grid.inverse?]
  cases s.grid.determinant? <;> rfl

theorem Reached.remembers (h : Reached s) : s.Remembers := by
  induction h with
  | fresh g =>
    intro d hd
    cases hd
  | edited _ hrun ih =>
    rcases edit_run_cases hrun with rfl | hnone
    · exact ih
    · intro d hd
      cases hnone.symm.trans hd
  | asked _ hrun ih =>
    rw [ih.determinant_run] at hrun
    obtain rfl := (Prod.mk.inj hrun).2
    exact fun _ hd => hd
  | inverted _ hrun ih =>
    obtain rfl := (Prod.mk.inj (ih.inverse_run.symm.trans hrun)).2
    exact fun _ hd => hd

/-- Four rows, of which the last one holds the most zeros. -/
def sparseGrid : Grid := ⟨[[2, 1, 1, 3], [1, 0, 5, 1], [4, 1, 2, 1], [0, 0, 3, 0]]⟩

/-- The determinant that a square sheet answers with, computed or remembered, is the signed sum over all permutations
of the products of entries, whichever line it is expanded along. -/
theorem determinant_eq_leibniz (h : Reached s) (hsquare : s.grid.isSquare = true) :
    determinant.run s = (.ok (some (∑ σ : Equiv.Perm (Fin s.grid.rowCount),
        (Equiv.Perm.sign σ : Int) * ∏ i, s.grid.entry (σ i) i)), ⟨s.grid, s.grid.determinant?⟩) := by
  have hdet : s.grid.determinant? = some (∑ σ : Equiv.Perm (Fin s.grid.rowCount),
      (Equiv.Perm.sign σ : Int) * ∏ i, s.grid.entry (σ i) i) := by
    rw [Grid.determinant?, if_pos hsquare, Grid.determinantOf_eq_det, Matrix.det_apply']
    rfl
  rw [h.remembers.determinant_run, hdet]

/-- A sheet is asked, its last row is replaced, and it is asked twice more. -/
theorem determinant_eq_leibniz_sample :
    ∃ s, Reached s ∧ s.grid = sparseGrid ∧ s.known = some (-12) ∧ s.grid.isSquare = true ∧
      sparseGrid.expansionLine 4 = .row 3 ∧ (determinant.run s).1.toOption = some (some (-12)) ∧
      ∑ σ : Equiv.Perm (Fin 4), ((Equiv.Perm.sign σ : Int) : Rat) * ∏ i, sparseGrid.entry (σ i) i = -12 := by
  have hasked {g : Grid} (h : Reached ⟨g, none⟩) : Reached ⟨g, g.determinant?⟩ := h.asked rfl
  have hedited : Reached ⟨sparseGrid, none⟩ :=
    (hasked (.fresh (sparseGrid.replaceRow 3 [1, 1, 1, 1]))).edited
      (show (setRow 3 (.each [.int 0, .int 0, .int 3, .int 0])).run _ = (.ok (), _) from rfl)
  have hvalue : sparseGrid.determinant? = some (-12) := by decide +kernel
  have hrun := determinant_eq_leibniz (hasked hedited) rfl
  have hsum := (Prod.mk.inj (hrun.symm.trans (hasked hedited).remembers.determinant_run)).1
  have hsum := Option.some.inj ((Except.ok.inj hsum).trans hvalue)
  refine ⟨_, hasked hedited, rfl, hvalue, rfl, by decide +kernel, ?_, hsum⟩
  rw [hrun]
  exact congrArg (fun d => some (some d)) hsum

end Remembered

end Sheet

end ExactLP
