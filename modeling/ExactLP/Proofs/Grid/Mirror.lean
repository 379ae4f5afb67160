import ExactLP.Proofs.Grid.Entries
import ExactLP.Proofs.InStep

/-!
# Proofs.Grid.Mirror — a tableau with the signs of its first row changed

* `Grid.mirrored`: row 0 negated; every other row is kept.
* `agree_divideToOne`, `agree_zeroOut`: what a pivot does in a row other than row 0 is the same up to the signs
  of row 0.
* `setRow_mirrored`, `agree_setRow_neg`: a new row 0 and its negation.
-/

namespace ExactLP.Grid

/-- The grid with the signs of its first row changed. -/
def mirrored (g : Grid) : Grid := ⟨g.rows.modifyHead (List.map Neg.neg)⟩

variable {g : Grid} {i r : Nat} {c : Int} {values : List Rat}

/-! ## Entries -/

section Entries

@[simp]
theorem rowCount_mirrored (g : Grid) : g.mirrored.rowCount = g.rowCount := List.length_modifyHead

@[simp]
theorem columnCount_mirrored (g : Grid) : g.mirrored.columnCount = g.columnCount := by
  unfold columnCount mirrored
  cases g.rows with
  | nil => rfl
  | cons first rest => exact List.length_map _

@[simp]
theorem line_mirrored_zero (g : Grid) : g.mirrored.line 0 = (g.line 0).map Neg.neg := by
  unfold line mirrored
  cases g.rows <;> rfl

@[simp]
theorem line_mirrored_succ (g : Grid) (i : Nat) : g.mirrored.line (i + 1) = g.line (i + 1) := by
  unfold line mirrored
  cases g.rows <;> rfl

theorem line_mirrored_of_pos (hi : 0 < i) : g.mirrored.line i = g.line i := by
  obtain ⟨k, rfl⟩ := Nat.exists_eq_succ_of_ne_zero hi.ne'
  exact line_mirrored_succ g k

@[simp]
theorem entry_mirrored_zero (g : Grid) (j : Nat) : g.mirrored.entry 0 j = -g.entry 0 j := by
  rw [entry, line_mirrored_zero, List.getD_eq_getElem?_getD, List.getElem?_map, entry, List.getD_eq_getElem?_getD]
  cases (g.line 0)[j]? <;> simp

theorem entry_mirrored_of_pos (hi : 0 < i) (j : Nat) : g.mirrored.entry i j = g.entry i j := by
  rw [entry, line_mirrored_of_pos hi, entry]

theorem lastEntry_mirrored_of_pos (hi : 0 < i) : g.mirrored.lastEntry i = g.lastEntry i := by
  rw [lastEntry, columnCount_mirrored, entry_mirrored_of_pos hi, lastEntry]

@[simp]
theorem rowAt_mirrored (g : Grid) (index : Int) : g.mirrored.rowAt index = g.rowAt index := by
  rw [rowAt, rowCount_mirrored, rowAt]

@[simp]
theorem columnAt_mirrored (g : Grid) (index : Int) : g.mirrored.columnAt index = g.columnAt index := by
  rw [columnAt, columnCount_mirrored, columnAt]

/-- An index that counts from the start points at its own row. -/
theorem eq_of_rowAt {k : Nat} (h : g.rowAt i = .ok k) : k = i := by
  unfold rowAt resolveIndex at h
  split at h
  · rename_i heq
    rw [← Except.ok.inj h]
    grind
  · cases h

theorem agree_rowAt (g : Grid) (i : Nat) : Agree (fun k k' => k = i ∧ k' = i) (g.rowAt i) (g.mirrored.rowAt i) := by
  rw [rowAt_mirrored]
  exact Agree.refl fun k hk => ⟨eq_of_rowAt hk, eq_of_rowAt hk⟩

theorem get_mirrored_of_pos (hi : 0 < i) (c : Int) : g.mirrored.get i c = g.get i c := by
  unfold get
  rw [rowAt_mirrored, columnAt_mirrored]
  cases hrow : g.rowAt i with
  | error f => rfl
  | ok k =>
    cases g.columnAt c with
    | error f => rfl
    | ok j => exact congrArg Except.ok (entry_mirrored_of_pos (eq_of_rowAt hrow ▸ hi) j)

theorem agree_get_zero (g : Grid) (c : Int) : Agree (fun v v' => v' = -v) (g.get 0 c) (g.mirrored.get 0 c) := by
  unfold get
  rw [columnAt_mirrored]
  refine (g.agree_rowAt 0).bind fun k k' hk => (agree_self (g.columnAt c)).bind fun j j' hj => ?_
  obtain ⟨rfl, rfl⟩ := hk
  exact hj ▸ entry_mirrored_zero g j

end Entries

/-! ## Replaced rows -/

section Replace

theorem replaceRow_mirrored_of_pos (hi : 0 < i) (values : List Rat) :
    g.mirrored.replaceRow i values = (g.replaceRow i values).mirrored := by
  obtain ⟨k, rfl⟩ := Nat.exists_eq_succ_of_ne_zero hi.ne'
  unfold replaceRow mirrored
  cases g.rows <;> rfl

theorem replaceRow_neg (g : Grid) (values : List Rat) :
    g.replaceRow 0 (values.map Neg.neg) = (g.replaceRow 0 values).mirrored := by
  unfold replaceRow mirrored
  cases g.rows <;> rfl

/-- Nothing is left of the signs of row 0 when it is replaced. -/
theorem replaceRow_mirrored_zero (g : Grid) (values : List Rat) :
    g.mirrored.replaceRow 0 values = g.replaceRow 0 values := by
  unfold replaceRow mirrored
  cases g.rows <;> rfl

theorem eq_zero_of_rowAt {k : Nat} (h : g.rowAt 0 = .ok k) : k = 0 := eq_of_rowAt (i := 0) h

/-- When row 0 is set, the signs that it had do not count. -/
theorem setRow_mirrored (g : Grid) (values : List Rat) : g.mirrored.setRow 0 values = g.setRow 0 values := by
  unfold setRow
  rw [columnCount_mirrored, rowAt_mirrored]
  cases hrow : g.rowAt 0 with
  | error f => rfl
  | ok k =>
    obtain rfl := eq_zero_of_rowAt hrow
    exact congrArg (fun h => if values.length ≠ g.columnCount then _ else Except.ok h)
      (replaceRow_mirrored_zero g values)

theorem agree_setRow_neg (g : Grid) (values : List Rat) :
    Agree (fun h h' => h' = h.mirrored) (g.setRow 0 values) (g.setRow 0 (values.map Neg.neg)) := by
  unfold setRow
  rw [List.length_map]
  split
  · exact rfl
  · cases hrow : g.rowAt 0 with
    | error f => exact rfl
    | ok k =>
      obtain rfl := eq_zero_of_rowAt hrow
      exact replaceRow_neg g values

end Replace

/-! ## Row operations of a pivot -/

section Operations

theorem agree_divideToOne (hi : 0 < i) (c : Int) :
    Agree (fun h h' => h' = h.mirrored) (g.divideToOne i c) (g.mirrored.divideToOne i c) := by
  unfold divideToOne
  rw [get_mirrored_of_pos hi]
  refine (agree_self (g.get i c)).bind fun v v' hv => ?_
  subst hv
  dsimp only
  split
  · exact rfl
  · refine (g.agree_rowAt i).bind fun k k' hk => ?_
    obtain ⟨rfl, rfl⟩ := hk
    rw [line_mirrored_of_pos hi, replaceRow_mirrored_of_pos hi]
    exact rfl

/-- What a row and a multiple of another one add up to changes its sign with the first row and the multiple. -/
theorem addScaled_neg (row other : List Rat) (k : Rat) :
    addScaled (row.map Neg.neg) other (-k) = (addScaled row other k).map Neg.neg := by
  unfold addScaled
  rw [List.zipWith_map_left, List.map_zipWith]
  congr 1
  funext a b
  ring

theorem agree_combine_of_pos (hi : 0 < i) (hr : 0 < r) (k : Rat) :
    Agree (fun h h' => h' = h.mirrored) (g.combine i r k) (g.mirrored.combine i r k) := by
  refine (g.agree_rowAt i).bind fun x x' hx => (g.agree_rowAt r).bind fun y y' hy => ?_
  obtain ⟨rfl, rfl⟩ := hx
  obtain ⟨rfl, rfl⟩ := hy
  rw [line_mirrored_of_pos hi, line_mirrored_of_pos hr, replaceRow_mirrored_of_pos hi]
  exact rfl

theorem agree_combine_zero (hr : 0 < r) (k : Rat) :
    Agree (fun h h' => h' = h.mirrored) (g.combine 0 r k) (g.mirrored.combine 0 r (-k)) := by
  refine (g.agree_rowAt 0).bind fun x x' hx => (g.agree_rowAt r).bind fun y y' hy => ?_
  obtain ⟨rfl, rfl⟩ := hx
  obtain ⟨rfl, rfl⟩ := hy
  rw [line_mirrored_zero, line_mirrored_of_pos hr, addScaled_neg, replaceRow_mirrored_zero, replaceRow_neg]
  exact rfl

/-- Cancelling an entry of another row by means of a row that is not row 0. -/
theorem agree_zeroOut (hr : 0 < r) (i : Nat) (c : Int) :
    Agree (fun h h' => h' = h.mirrored) (g.zeroOut i r c) (g.mirrored.zeroOut i r c) := by
  unfold zeroOut
  rcases Nat.eq_zero_or_pos i with rfl | hi
  · refine (g.agree_get_zero c).bind fun v v' hv => ?_
    subst hv
    simp only [neg_eq_zero]
    split
    · exact rfl
    · rw [get_mirrored_of_pos hr]
      refine (agree_self (g.get r c)).bind fun p p' hp => ?_
      subst hp
      split
      · exact rfl
      · have hcombine := agree_combine_zero (g := g) hr (-v / p)
        rwa [← neg_div] at hcombine
  · rw [get_mirrored_of_pos hi]
    refine (agree_self (g.get i c)).bind fun v v' hv => ?_
    subst hv
    dsimp only
    split
    · exact rfl
    · rw [get_mirrored_of_pos hr]
      refine (agree_self (g.get r c)).bind fun p p' hp => ?_
      subst hp
      split
      · exact rfl
      · exact agree_combine_of_pos hi hr _

end Operations

end ExactLP.Grid
