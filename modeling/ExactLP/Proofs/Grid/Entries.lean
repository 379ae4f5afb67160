import ExactLP.Grid.Basic
import Mathlib.Algebra.Order.Field.Rat
import Mathlib.Data.List.GetD
import Mathlib.Tactic.FieldSimp
import Mathlib.Tactic.Ring

/-!
# Proofs.Grid.Entries — what row operations do to the entries of a grid

A grid is `Shaped` when it has a given number of rows of a given width.  On a shaped grid every row
operation with indices inside goes through, keeps the shape, and changes the entries of one row or one
column; entries outside a grid are zero, so the formulas hold at every column.

* `divideToOne_spec`, `zeroOut_spec`, `setRow_spec`, `fillRow_spec`, `fillColumn_spec`.
* `Shaped.ext`: a shaped grid is determined by its entries.
-/

namespace ExactLP

theorem resolveIndex_natCast {i size : Nat} (h : i < size) : resolveIndex (i : Int) size = some i := by
  simp only [resolveIndex, Option.ite_none_right_eq_some, Option.some.injEq]
  omega

theorem resolveIndex_neg_one {size : Nat} (h : 0 < size) : resolveIndex (-1) size = some (size - 1) := by
  simp only [resolveIndex, Option.ite_none_right_eq_some, Option.some.injEq]
  omega

namespace Grid

/-- The grid has `height` rows of `width` entries. -/
structure Shaped (g : Grid) (height width : Nat) : Prop where
  height_eq : g.rows.length = height
  width_eq : ∀ row ∈ g.rows, row.length = width

variable {g g' : Grid} {h w i j k : Nat}

/-! ## Shape -/

section Shape

theorem Shaped.rowCount_eq (hs : g.Shaped h w) : g.rowCount = h := hs.height_eq

theorem Shaped.columnCount_eq (hs : g.Shaped h w) (hpos : 0 < h) : g.columnCount = w := by
  obtain ⟨hh, hw⟩ := hs
  unfold columnCount
  cases hg : g.rows with
  | nil => rw [hg] at hh; simp at hh; omega
  | cons row rest => exact hw row (by simp [hg])

theorem Shaped.length_line (hs : g.Shaped h w) (hi : i < h) : (g.line i).length = w := by
  have hlt : i < g.rows.length := by rw [hs.height_eq]; exact hi
  unfold line
  rw [List.getD_eq_getElem _ _ hlt]
  exact hs.width_eq _ (List.getElem_mem hlt)

theorem Shaped.rowAt_eq (hs : g.Shaped h w) (hi : i < h) : g.rowAt i = .ok i := by
  unfold rowAt
  rw [hs.rowCount_eq, resolveIndex_natCast hi]
  rfl

theorem Shaped.columnAt_eq (hs : g.Shaped h w) (hpos : 0 < h) (hj : j < w) : g.columnAt j = .ok j := by
  unfold columnAt
  rw [hs.columnCount_eq hpos, resolveIndex_natCast hj]
  rfl

theorem Shaped.get_eq (hs : g.Shaped h w) (hi : i < h) (hj : j < w) : g.get i j = .ok (g.entry i j) := by
  unfold get
  rw [hs.rowAt_eq hi, hs.columnAt_eq (by omega) hj]
  rfl

/-- The right side is read from the end. -/
theorem Shaped.get_last_eq (hs : g.Shaped h w) (hi : i < h) (hw : 0 < w) :
    g.get i (-1) = .ok (g.lastEntry i) := by
  have hc := hs.columnCount_eq (show 0 < h by omega)
  unfold get columnAt
  rw [hs.rowAt_eq hi, hc, resolveIndex_neg_one hw, lastEntry, hc]
  rfl

theorem Shaped.lastEntry_eq (hs : g.Shaped h (w + 1)) (hpos : 0 < h) (i : Nat) :
    g.lastEntry i = g.entry i w := by
  rw [lastEntry, hs.columnCount_eq hpos, Nat.add_sub_cancel]

theorem Shaped.ext (hs : g.Shaped h w) (hs' : g'.Shaped h w)
    (heq : ∀ i < h, ∀ j < w, g.entry i j = g'.entry i j) : g = g' := by
  have hrows : g.rows = g'.rows := by
    apply List.ext_getElem (by rw [hs.height_eq, hs'.height_eq])
    intro i hi hi'
    have hih : i < h := hs.height_eq ▸ hi
    have hl : (g.rows[i]).length = w := hs.width_eq _ (List.getElem_mem hi)
    have hl' : (g'.rows[i]).length = w := hs'.width_eq _ (List.getElem_mem hi')
    apply List.ext_getElem (by rw [hl, hl'])
    intro j hj hj'
    have he := heq i hih j (hl ▸ hj)
    simpa only [entry, line, List.getD_eq_getElem _ _ hi, List.getD_eq_getElem _ _ hi',
      List.getD_eq_getElem _ _ hj, List.getD_eq_getElem _ _ hj'] using he
  cases g
  cases g'
  exact congrArg Grid.mk hrows

end Shape

/-! ## Replaced rows -/

section Replace

theorem line_replaceRow_self (hi : i < g.rows.length) (values : List Rat) :
    (g.replaceRow i values).line i = values := by
  simp [line, replaceRow, List.getD_eq_getElem?_getD, List.getElem?_set_self hi]

theorem line_replaceRow_of_ne (hne : k ≠ i) (values : List Rat) :
    (g.replaceRow i values).line k = g.line k := by
  simp [line, replaceRow, List.getD_eq_getElem?_getD, List.getElem?_set_ne (Ne.symm hne)]

theorem Shaped.replaceRow (hs : g.Shaped h w) {values : List Rat} (hv : values.length = w) :
    (g.replaceRow i values).Shaped h w where
  height_eq := by simpa [Grid.replaceRow] using hs.height_eq
  width_eq := by
    intro row hrow
    rcases List.mem_or_eq_of_mem_set hrow with hmem | heq
    · exact hs.width_eq row hmem
    · rw [heq, hv]

/-- Replacing a row changes no other row and keeps the shape. -/
theorem Shaped.replaceRow_spec (hs : g.Shaped h w) (hi : i < h) {values : List Rat}
    (hv : values.length = w) :
    (g.replaceRow i values).Shaped h w ∧ (∀ l, (g.replaceRow i values).entry i l = values.getD l 0) ∧
      ∀ k ≠ i, ∀ l, (g.replaceRow i values).entry k l = g.entry k l := by
  refine ⟨hs.replaceRow hv, ?_, ?_⟩
  · intro l
    rw [entry, line_replaceRow_self (by rw [hs.height_eq]; exact hi)]
  · intro k hk l
    rw [entry, line_replaceRow_of_ne hk, entry]

/-- As many values as there are rows reach every row. -/
theorem line_replaceColumn {values : List Rat} (hv : values.length = g.rowCount) (i j : Nat) :
    (g.replaceColumn j values).line i = (g.line i).set j (values.getD i 0) := by
  simp only [line, Grid.replaceColumn, List.getD_eq_getElem?_getD, List.getElem?_zipWith]
  by_cases hi : i < g.rows.length
  · have hi' : i < values.length := hv ▸ hi
    simp [hi, hi']
  · simp [hi]

theorem Shaped.replaceColumn (hs : g.Shaped h w) {values : List Rat} (hv : values.length = g.rowCount) (j : Nat) :
    (g.replaceColumn j values).Shaped h w where
  height_eq := by rw [Grid.replaceColumn, List.length_zipWith, hv, Grid.rowCount, Nat.min_self, hs.height_eq]
  width_eq := by
    intro row hrow
    obtain ⟨i, hi, rfl⟩ := List.mem_iff_getElem.mp hrow
    simp only [Grid.replaceColumn, List.getElem_zipWith, List.length_set]
    exact hs.width_eq _ (List.getElem_mem _)

theorem getD_map_mul (row : List Rat) (c : Rat) (l : Nat) :
    (row.map (· * c)).getD l 0 = row.getD l 0 * c := by
  rw [List.getD_eq_getElem?_getD, List.getD_eq_getElem?_getD, List.getElem?_map]
  cases row[l]? with
  | none => exact (zero_mul c).symm
  | some a => rfl

theorem getD_addScaled {row other : List Rat} (hlen : row.length = other.length) (c : Rat) (l : Nat) :
    (addScaled row other c).getD l 0 = row.getD l 0 + other.getD l 0 * c := by
  unfold addScaled
  by_cases hl : l < row.length
  · have hl' : l < other.length := hlen ▸ hl
    rw [List.getD_eq_getElem _ _ (by simp; omega), List.getD_eq_getElem _ _ hl,
      List.getD_eq_getElem _ _ hl', List.getElem_zipWith]
  · rw [List.getD_eq_default _ _ (by simp; omega), List.getD_eq_default _ _ (by omega),
      List.getD_eq_default _ _ (by omega)]
    ring

end Replace

/-! ## Row operations -/

section Operations

/-- Scaling a row to read one divides it by its entry. -/
theorem divideToOne_spec (hs : g.Shaped h w) (hi : i < h) (hj : j < w) (hne : g.entry i j ≠ 0) :
    ∃ g', g.divideToOne i j = .ok g' ∧ g'.Shaped h w ∧
      (∀ l, g'.entry i l = g.entry i l / g.entry i j) ∧ ∀ k ≠ i, ∀ l, g'.entry k l = g.entry k l := by
  have hlen : ((g.line i).map (· * (g.entry i j)⁻¹)).length = w := by
    rw [List.length_map, hs.length_line hi]
  obtain ⟨h1, h2, h3⟩ := hs.replaceRow_spec hi hlen
  refine ⟨_, ?_, h1, ?_, h3⟩
  · unfold divideToOne scaleRow
    rw [hs.get_eq hi hj, hs.rowAt_eq hi]
    simp only [bind, Except.bind, pure, Except.pure, hne, if_false]
  · intro l
    rw [h2 l, getD_map_mul, div_eq_mul_inv]
    rfl

/-- Cancelling an entry subtracts a multiple of the reference row. -/
theorem zeroOut_spec (hs : g.Shaped h w) (hi : i < h) (hk : k < h) (hj : j < w)
    (hne : g.entry k j ≠ 0) :
    ∃ g', g.zeroOut i k j = .ok g' ∧ g'.Shaped h w ∧
      (∀ l, g'.entry i l = g.entry i l - g.entry i j / g.entry k j * g.entry k l) ∧
      ∀ r ≠ i, ∀ l, g'.entry r l = g.entry r l := by
  unfold zeroOut
  rw [hs.get_eq hi hj, hs.get_eq hk hj]
  by_cases hz : g.entry i j = 0
  · refine ⟨g, ?_, hs, ?_, fun _ _ _ => rfl⟩
    · simp only [bind, Except.bind, pure, Except.pure, hz, if_true]
    · intro l
      rw [hz, zero_div, zero_mul, sub_zero]
  · have hlen : (addScaled (g.line i) (g.line k) (-(g.entry i j) / g.entry k j)).length = w := by
      simp [addScaled, hs.length_line hi, hs.length_line hk]
    obtain ⟨h1, h2, h3⟩ := hs.replaceRow_spec hi hlen
    refine ⟨_, ?_, h1, ?_, h3⟩
    · unfold combine
      rw [hs.rowAt_eq hi, hs.rowAt_eq hk]
      simp only [bind, Except.bind, pure, Except.pure, hz, hne, if_false]
    · intro l
      rw [h2 l, getD_addScaled (by rw [hs.length_line hi, hs.length_line hk])]
      show g.entry i l + g.entry k l * (-(g.entry i j) / g.entry k j) = _
      ring

theorem setRow_spec (hs : g.Shaped h w) (hi : i < h) {values : List Rat} (hv : values.length = w) :
    ∃ g', g.setRow i values = .ok g' ∧ g'.Shaped h w ∧ (∀ l, g'.entry i l = values.getD l 0) ∧
      ∀ k ≠ i, ∀ l, g'.entry k l = g.entry k l := by
  refine ⟨_, ?_, hs.replaceRow_spec hi hv⟩
  unfold setRow
  rw [hs.columnCount_eq (by omega), hs.rowAt_eq hi]
  simp only [hv, ne_eq, not_true_eq_false, if_false]
  rfl

/-- Dropping a row leaves zeros in it. -/
theorem fillRow_spec (hs : g.Shaped h w) (hi : i < h) :
    ∃ g', g.fillRow i 0 = .ok g' ∧ g'.Shaped h w ∧ (∀ l, g'.entry i l = 0) ∧
      ∀ k ≠ i, ∀ l, g'.entry k l = g.entry k l := by
  have hlen : (List.replicate g.columnCount (0 : Rat)).length = w := by
    rw [List.length_replicate, hs.columnCount_eq (by omega)]
  obtain ⟨g', h1, h2, h3, h4⟩ := setRow_spec hs hi hlen
  refine ⟨g', h1, h2, ?_, h4⟩
  intro l
  rw [h3 l, List.getD_eq_getElem?_getD, List.getElem?_replicate]
  split <;> rfl

/-- Clearing a column leaves zeros in it. -/
theorem fillColumn_spec (hs : g.Shaped h w) (hpos : 0 < h) (hj : j < w) :
    ∃ g', g.fillColumn j 0 = .ok g' ∧ g'.Shaped h w ∧
      ∀ i l, g'.entry i l = if l = j then 0 else g.entry i l := by
  have hv : (List.replicate g.rowCount (0 : Rat)).length = g.rowCount := List.length_replicate
  refine ⟨g.replaceColumn j (List.replicate g.rowCount 0), ?_, hs.replaceColumn hv j, ?_⟩
  · unfold fillColumn setColumn
    rw [hs.columnAt_eq hpos hj]
    simp only [List.length_replicate, ne_eq, not_true_eq_false, if_false]
    rfl
  · intro i l
    have hzero : (List.replicate g.rowCount (0 : Rat)).getD i 0 = 0 := by
      rw [List.getD_eq_getElem?_getD, List.getElem?_replicate]
      split <;> rfl
    rw [entry, line_replaceColumn hv, hzero, List.getD_eq_getElem?_getD, List.getElem?_set]
    by_cases hl : l = j
    · rw [if_pos hl.symm, if_pos hl]
      split <;> rfl
    · rw [if_neg (Ne.symm hl), if_neg hl, ← List.getD_eq_getElem?_getD]
      rfl

end Operations

end Grid

end ExactLP
