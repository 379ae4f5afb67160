import ExactLP.Proofs.Grid.Determinant
import ExactLP.Proofs.Grid.Entries
import Mathlib.LinearAlgebra.Matrix.Adjugate

/-!
# Proofs.Grid.Inverse — products, adjugates and inverses

The product of two grids is the product of their matrices, and the transposed cofactors are the adjugate.  So the
closed forms for one and two rows and the cofactors for more rows give one and the same thing, the adjugate over the
determinant, and the adjugate law says that it is an inverse on both sides.

* `Shaped.multiply?_eq`: the product of grids that fit.
* `matrix_adjugateOf`: the transposed cofactors.
* `matrix_inverseOf`: all closed forms at once.
* `inverse_exact`: which sheets have an inverse, and that it is one.
-/

open Finset

namespace ExactLP

namespace Grid

variable {g h : Grid} {k m n i j : Nat}

/-! ## Definitions -/

section Defs

/-- The square grid of a size with given entries. -/
def square (n : Nat) (f : Nat → Nat → Rat) : Grid := ⟨(List.range n).map fun i => (List.range n).map (f i)⟩

/-- Every entry times `c`. -/
def scaled (g : Grid) (c : Rat) : Grid := ⟨g.rows.map fun row => row.map (c * ·)⟩

end Defs

/-! ## Square grids -/

section Square

theorem shaped_square (n : Nat) (f : Nat → Nat → Rat) : (square n f).Shaped n n where
  height_eq := by simp [square]
  width_eq := by
    intro row hrow
    obtain ⟨i, -, rfl⟩ := List.mem_map.mp hrow
    simp

theorem matrix_square (n : Nat) (f : Nat → Nat → Rat) : (square n f).matrix n = .of fun i j => f i j := by
  ext i j
  show entry (square n f) i j = f i j
  simp [entry, line, square, List.getD_eq_getElem?_getD]

/-- A square grid is determined by its matrix. -/
theorem eq_of_matrix_eq (hg : g.Shaped n n) (hh : h.Shaped n n) (heq : g.matrix n = h.matrix n) : g = h :=
  hg.ext hh fun i hi j hj => congrFun (congrFun heq ⟨i, hi⟩) ⟨j, hj⟩

theorem identity_eq (hn : 0 < n) : identity n = .ok (square n fun i j => if i = j then 1 else 0) := by
  obtain ⟨n, rfl⟩ := Nat.exists_eq_succ_of_ne_zero hn.ne'
  unfold identity ofRows identityRows square checkShape
  simp [List.range_succ_eq_map]
  rfl

theorem matrix_identity (n : Nat) : (square n fun i j => if i = j then 1 else 0).matrix n = 1 := by
  rw [matrix_square]
  ext i j
  simp [Matrix.one_apply, Fin.ext_iff]

theorem Shaped.mapEntries (hg : g.Shaped m n) (f : Rat → Rat) : Shaped ⟨g.rows.map fun row => row.map f⟩ m n where
  height_eq := by rw [List.length_map, hg.height_eq]
  width_eq := by
    intro row hrow
    obtain ⟨r, hr, rfl⟩ := List.mem_map.mp hrow
    rw [List.length_map, hg.width_eq r hr]

/-- A function that keeps zero may be applied to the entries that are not there as well. -/
theorem entry_mapEntries (g : Grid) {f : Rat → Rat} (hf : f 0 = 0) (i j : Nat) :
    entry ⟨g.rows.map fun row => row.map f⟩ i j = f (g.entry i j) := by
  have hline : line ⟨g.rows.map fun row => row.map f⟩ i = (g.line i).map f :=
    List.getD_map g.rows [] (List.map f)
  rw [entry, hline]
  conv_lhs => rw [← hf]
  exact List.getD_map _ _ _

theorem matrix_scaled (g : Grid) (c : Rat) (n : Nat) : (g.scaled c).matrix n = c • g.matrix n := by
  ext i j
  exact g.entry_mapEntries (mul_zero c) i j

end Square

/-! ## Products -/

section Products

theorem getD_map_of_lt {α β : Type} {xs : List α} (f : α → β) (hi : i < xs.length) (d : α) (e : β) :
    (xs.map f).getD i e = f (xs.getD i d) := by
  rw [List.getD_eq_getElem _ _ (by rwa [List.length_map]), List.getElem_map, List.getD_eq_getElem _ _ hi]

theorem dot_eq_sum {xs ys : List Rat} (hx : xs.length = k) (hy : ys.length = k) :
    dot xs ys = ∑ l ∈ range k, xs.getD l 0 * ys.getD l 0 := by
  rw [dot, ← List.sum_eq_foldl]
  induction xs generalizing ys k with
  | nil =>
    subst hx
    rfl
  | cons x xs ih =>
    obtain ⟨y, ys, rfl⟩ := List.exists_cons_of_length_eq_add_one (hy.trans hx.symm)
    subst hx
    rw [List.zipWith_cons_cons, List.sum_cons, ih rfl (Nat.succ.inj hy), List.length_cons, sum_range_succ', add_comm]
    rfl

/-- Column `j` as it is read from top to bottom. -/
theorem getD_columns (h : Grid) (hj : j < h.columnCount) (l : Nat) :
    (h.columns.getD j []).getD l 0 = h.entry l j := by
  have hcolumn : h.columns.getD j [] = h.rows.map fun row => row.getD j 0 := by
    rw [List.getD_eq_getElem _ _ (by simpa [columns] using hj)]
    simp [columns]
  rw [hcolumn]
  exact List.getD_map h.rows [] fun row => row.getD j 0

/-- Grids that fit have a product, whose entries are those of the matrix product. -/
theorem Shaped.multiply?_eq (hg : g.Shaped m k) (hh : h.Shaped k n) (hm : 0 < m) (hk : 0 < k) :
    ∃ p, g.multiply? h = some p ∧ p.Shaped m n ∧
      ∀ i < m, ∀ j < n, p.entry i j = ∑ l ∈ range k, g.entry i l * h.entry l j := by
  have hcolumns : h.columnCount = n := hh.columnCount_eq hk
  refine ⟨⟨g.rows.map fun row => h.columns.map fun column => dot row column⟩, ?_, ⟨?_, ?_⟩, ?_⟩
  · rw [multiply?, if_pos ((hg.columnCount_eq hm).trans hh.rowCount_eq.symm)]
  · rw [List.length_map, hg.height_eq]
  · intro row hrow
    obtain ⟨r, -, rfl⟩ := List.mem_map.mp hrow
    simp [columns, hcolumns]
  · intro i hi j hj
    have hcolumn : j < h.columns.length := by simpa [columns, hcolumns] using hj
    have hlength : (h.columns.getD j []).length = k := by
      rw [List.getD_eq_getElem _ _ hcolumn]
      simp [columns, hh.height_eq]
    have hentry : entry ⟨g.rows.map fun row => h.columns.map fun column => dot row column⟩ i j =
        dot (g.line i) (h.columns.getD j []) := by
      unfold entry line
      rw [getD_map_of_lt _ (hg.height_eq ▸ hi) [] [], getD_map_of_lt _ hcolumn [] 0]
    rw [hentry, dot_eq_sum (hg.length_line hi) hlength]
    exact sum_congr rfl fun l _ => congrArg _ (h.getD_columns (hcolumns.symm ▸ hj) l)

/-- A product of square grids is known by the product of the matrices. -/
theorem multiply?_of_matrix {p : Grid} (hg : g.Shaped n n) (hh : h.Shaped n n) (hp : p.Shaped n n) (hn : 0 < n)
    (heq : g.matrix n * h.matrix n = p.matrix n) : g.multiply? h = some p := by
  obtain ⟨q, hq, hshaped, hentry⟩ := hg.multiply?_eq hh hn hn
  rw [hq, eq_of_matrix_eq hshaped hp]
  rw [← heq]
  ext i j
  exact (hentry i i.isLt j j.isLt).trans (sum_range fun l => g.entry i l * h.entry l j)

end Products

/-! ## Adjugates and inverses -/

section Inverses

theorem determinant?_of_shaped (hg : g.Shaped n n) (hn : 0 < n) : g.determinant? = some (g.matrix n).det := by
  rw [determinant?, isSquare, hg.rowCount_eq, hg.columnCount_eq hn, beq_self_eq_true, if_pos rfl,
    determinantOf_eq_det]

theorem determinant?_of_ne (hg : g.Shaped m n) (hm : 0 < m) (hne : m ≠ n) : g.determinant? = none := by
  rw [determinant?, isSquare, hg.rowCount_eq, hg.columnCount_eq hm, beq_false_of_ne hne, if_neg Bool.false_ne_true]

/-- What a grid of any shape has for its determinant. -/
theorem determinant?_eq (hg : g.Shaped m n) (hm : 0 < m) :
    g.determinant? = if m = n then some (g.matrix m).det else none := by
  split
  · rename_i hmn
    subst hmn
    exact determinant?_of_shaped hg hm
  · rename_i hmn
    exact determinant?_of_ne hg hm hmn

theorem adjugateOf_eq_square (hg : g.Shaped n n) : g.adjugateOf = square n fun i j => cofactor n g j i := by
  rw [adjugateOf, hg.rowCount_eq]
  rfl

/-- The transposed cofactors are the adjugate of the matrix. -/
theorem matrix_adjugateOf (hg : g.Shaped n n) : g.adjugateOf.matrix n = (g.matrix n).adjugate := by
  rw [adjugateOf_eq_square hg, matrix_square]
  obtain _ | n := n
  · exact Matrix.ext fun i => i.elim0
  · ext i j
    rw [Matrix.adjugate_fin_succ_eq_det_submatrix, ← matrix_withoutCross, ← placeSign_eq_pow, ← determinantOf_eq_det]
    rfl

theorem shaped_inverseOf (hg : g.Shaped n n) (d : Rat) : (g.inverseOf d).Shaped n n := by
  unfold inverseOf
  rw [hg.rowCount_eq]
  split
  · exact ⟨rfl, by simp⟩
  · exact ⟨rfl, by simp⟩
  · rw [adjugateOf_eq_square hg]
    exact (shaped_square _ _).mapEntries _

/-- Each way to form an inverse gives the adjugate over the determinant. -/
theorem matrix_inverseOf (hg : g.Shaped n n) :
    (g.inverseOf (g.matrix n).det).matrix n = (g.matrix n).det⁻¹ • (g.matrix n).adjugate := by
  unfold inverseOf
  rw [hg.rowCount_eq]
  split
  · rw [Matrix.adjugate_fin_one, Matrix.det_fin_one]
    ext i j
    obtain rfl := Subsingleton.elim i 0
    obtain rfl := Subsingleton.elim j 0
    simp [matrix, entry, line]
  · rw [Matrix.adjugate_fin_two]
    ext i j
    fin_cases i <;> fin_cases j <;> simp [matrix, entry, line, div_eq_inv_mul]
  · rw [← matrix_adjugateOf hg]
    ext i j
    have hentry := g.adjugateOf.entry_mapEntries (f := (· / (g.matrix n).det)) (zero_div _) i j
    exact hentry.trans (div_eq_inv_mul _ _)

theorem identity_exists (hn : 0 < n) : ∃ one, identity n = .ok one ∧ one.Shaped n n ∧ one.matrix n = 1 :=
  ⟨_, identity_eq hn, shaped_square n _, matrix_identity n⟩

/-- The adjugate law. -/
theorem multiply?_adjugateOf {one : Grid} (hg : g.Shaped n n) (hone : one.Shaped n n) (hmatrix : one.matrix n = 1)
    (hn : 0 < n) : g.multiply? g.adjugateOf = some (one.scaled (g.matrix n).det) := by
  have hadjugate : g.adjugateOf.Shaped n n := adjugateOf_eq_square hg ▸ shaped_square n _
  refine multiply?_of_matrix hg hadjugate (hone.mapEntries _) hn ?_
  rw [matrix_adjugateOf hg, Matrix.mul_adjugate, ← hmatrix]
  exact (one.matrix_scaled _ n).symm

/-- What is formed over a determinant that is not zero is an inverse on both sides. -/
theorem multiply?_inverseOf {one : Grid} (hg : g.Shaped n n) (hone : one.Shaped n n) (hmatrix : one.matrix n = 1)
    (hn : 0 < n) (hdet : (g.matrix n).det ≠ 0) :
    g.multiply? (g.inverseOf (g.matrix n).det) = some one ∧ (g.inverseOf (g.matrix n).det).multiply? g = some one := by
  have hinverse := shaped_inverseOf hg (g.matrix n).det
  constructor
  · refine multiply?_of_matrix hg hinverse hone hn ?_
    rw [matrix_inverseOf hg, Matrix.mul_smul, Matrix.mul_adjugate, smul_smul, inv_mul_cancel₀ hdet, one_smul, hmatrix]
  · refine multiply?_of_matrix hinverse hg hone hn ?_
    rw [matrix_inverseOf hg, Matrix.smul_mul, Matrix.adjugate_mul, smul_smul, inv_mul_cancel₀ hdet, one_smul, hmatrix]

theorem inverse?_eq_none_iff (hg : g.Shaped m n) (hm : 0 < m) :
    g.inverse? = none ↔ m ≠ n ∨ (g.matrix m).det = 0 := by
  unfold inverse?
  by_cases hmn : m = n
  · subst hmn
    rw [determinant?_of_shaped hg hm]
    simp
  · rw [determinant?_of_ne hg hm hmn]
    simp [hmn]

/-- What an inverse was formed from. -/
theorem of_inverse? (hg : g.Shaped m n) (hm : 0 < m) (hsome : g.inverse? = some h) :
    m = n ∧ (g.matrix m).det ≠ 0 ∧ h = g.inverseOf (g.matrix m).det := by
  have hne : ¬(m ≠ n ∨ (g.matrix m).det = 0) := by
    rw [← inverse?_eq_none_iff hg hm, hsome]
    exact Option.some_ne_none h
  rw [not_or, not_not] at hne
  obtain ⟨rfl, hdet⟩ := hne
  rw [inverse?, determinant?_of_shaped hg hm] at hsome
  dsimp only at hsome
  rw [if_neg hdet] at hsome
  exact ⟨rfl, hdet, (Option.some.inj hsome).symm⟩

/-- From two rows on there are minors to take the cofactors from. -/
theorem adjugate_eq (hg : g.Shaped n n) (hn : 2 ≤ n) : g.adjugate = .ok g.adjugateOf := by
  have hcolumns := hg.columnCount_eq (by omega)
  unfold adjugate isSquare
  rw [hg.rowCount_eq, hcolumns, if_neg (by omega), if_neg (by omega), beq_self_eq_true, if_pos rfl]
  rfl

end Inverses

end Grid

/-! ## Sheets -/

namespace Sheet

variable {s : Sheet} {m n : Nat}

section Sheets

/-- Three rows that are no symmetric grid. -/
def skewGrid : Grid := ⟨[[2, 1, 0], [0, 1, 3], [1, 0, 1]]⟩

/-- A sheet has no inverse exactly when it is not square or its determinant is zero.  An inverse gives the identity
on both sides, and a square sheet of at least two rows times its adjugate is the identity times its determinant. -/
theorem inverse_exact (h : Reached s) (hshaped : s.grid.Shaped m n) (hm : 0 < m) (hn : 0 < n) :
    ∃ found one, inverse.run s = (.ok found, ⟨s.grid, s.grid.determinant?⟩) ∧ Grid.identity m = .ok one ∧
      s.grid.determinant? = (if m = n then some (s.grid.matrix m).det else none) ∧
      (found = none ↔ m ≠ n ∨ (s.grid.matrix m).det = 0) ∧
      (∀ g, found = some g → s.grid.multiply? g = some one ∧ g.multiply? s.grid = some one) ∧
      (m = n → 2 ≤ m → ∃ adjugate, s.grid.adjugate = .ok adjugate ∧
        s.grid.multiply? adjugate = some (one.scaled (s.grid.matrix m).det)) := by
  obtain ⟨one, hidentity, hone, hmatrix⟩ := Grid.identity_exists hm
  refine ⟨s.grid.inverse?, one, h.remembers.inverse_run, hidentity, Grid.determinant?_eq hshaped hm,
    Grid.inverse?_eq_none_iff hshaped hm, ?_, ?_⟩
  · intro g hg
    obtain ⟨rfl, hdet, rfl⟩ := Grid.of_inverse? hshaped hm hg
    exact Grid.multiply?_inverseOf hshaped hone hmatrix hm hdet
  · rintro rfl htwo
    exact ⟨_, Grid.adjugate_eq hshaped htwo, Grid.multiply?_adjugateOf hshaped hone hmatrix hm⟩

/-- A sheet of three rows is asked for its determinant, which is 5, and then for its inverse. -/
theorem inverse_exact_sample :
    ∃ s g one, Reached s ∧ s.grid = skewGrid ∧ s.known = some 5 ∧ s.grid.Shaped 3 3 ∧ Grid.identity 3 = .ok one ∧
      (inverse.run s).1 = .ok (some g) ∧ s.grid.multiply? g = some one ∧ g.multiply? s.grid = some one ∧
      ∃ adjugate, s.grid.adjugate = .ok adjugate ∧ s.grid.multiply? adjugate = some (one.scaled 5) := by
  have hasked : Reached ⟨skewGrid, skewGrid.determinant?⟩ := (Reached.fresh skewGrid).asked rfl
  have hvalue : skewGrid.determinant? = some 5 := by decide +kernel
  have hshaped : skewGrid.Shaped 3 3 := ⟨rfl, by decide⟩
  obtain ⟨found, one, hrun, hidentity, hdeterminant, hnone, hinverse, hadjugate⟩ :=
    inverse_exact hasked hshaped (by decide) (by decide)
  have hdet : (skewGrid.matrix 3).det = 5 := Option.some.inj (hdeterminant.symm.trans hvalue)
  cases found with
  | none => exact absurd (hdet.symm.trans ((hnone.mp rfl).resolve_left (by decide))) (by norm_num)
  | some g =>
    obtain ⟨hright, hleft⟩ := hinverse g rfl
    exact ⟨_, g, one, hasked, rfl, hvalue, hshaped, hidentity, by rw [hrun], hright, hleft,
      hdet ▸ hadjugate rfl (by decide)⟩

end Sheets

end Sheet

end ExactLP
