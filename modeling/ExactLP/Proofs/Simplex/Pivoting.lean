import ExactLP.Proofs.Simplex.Choice

/-!
# Proofs.Simplex.Pivoting — what one pivot does to a canonical state

A pivot on an entry that is not zero, in a usable column, goes through as long as no right side turns
negative.  It keeps the state canonical and priced, and it keeps the system.

* `pivot_run`: the run of a pivot.
* `Canonical.pivoted`, `Priced.pivoted`: the invariants after it.
* `Binds.rhs_nonneg`, `rhs_of_zero`: a pivot by the ratio test, and one in a row at level zero, leave no
  right side negative.
-/

namespace ExactLP.Simplex

open Grid (PivotOf)

/-! ## Primitive steps -/

section Primitive

variable {s : State} {i j : Nat}

theorem onTableau_run {f : Grid → Except Fault Grid} {g : Grid} (h : f s.tableau = .ok g) :
    (onTableau f).run s = (.ok ⟨⟩, { s with tableau := g }) := by
  unfold onTableau
  rw [run_bind_of_ok (run_get s), h]
  rfl

theorem onState_run {f : State → Except Fault State} {t : State} (h : f s = .ok t) :
    (onState f).run s = (.ok ⟨⟩, t) := by
  unfold onState
  rw [run_bind_of_ok (run_get s), h]
  rfl

theorem State.column_eq {c : Column} (h : s.columns[j]? = some c) : s.column j = .ok c := by
  have hlt := (List.getElem?_eq_some_iff.mp h).1
  unfold State.column
  rw [resolveIndex_natCast hlt, Option.bind_some, h]
  rfl

theorem State.basisEntry_eq {entry : Option Int} (h : s.basis[i]? = some entry) :
    s.basisEntry i = .ok entry := by
  unfold State.basisEntry
  rw [h]
  rfl

theorem State.setBasis_eq (h : i < s.basis.length) (entry : Option Int) :
    s.setBasis i entry = .ok { s with basis := s.basis.set i entry } := by
  unfold State.setBasis
  rw [resolveIndex_natCast h]
  rfl

end Primitive

namespace State

variable {s : State} {m n r c i j k : Nat} {g : Grid}

/-- The state after a pivot that leaves the tableau `g`. -/
def pivoted (s : State) (g : Grid) (r c : Nat) : State :=
  { s with
    tableau := g
    basis := s.basis.set r (some (c : Int))
    pivots := s.pivots ++ [((r : Int), (c : Int))] }

/-- No right side is negative after a pivot on row `r` and column `c`. -/
def KeepsRhs (s : State) (m n r c : Nat) : Prop :=
  0 ≤ s.tableau.entry r n / s.tableau.entry r c ∧
    ∀ k, 1 ≤ k → k ≤ m → k ≠ r →
      0 ≤ s.tableau.entry k n - s.tableau.entry k c / s.tableau.entry r c * s.tableau.entry r n

theorem KeepsRhs.rhs_nonneg (h : s.KeepsRhs m n r c) {w : Nat} (hp : s.tableau.PivotOf g (m + 1) w r c)
    (h1 : 1 ≤ k) (h2 : k ≤ m) : 0 ≤ g.entry k n := by
  by_cases hk : k = r
  · rw [hk, hp.pivotRow]
    exact h.1
  · rw [hp.otherRow k hk (by omega)]
    exact h.2 k h1 h2 hk

/-! ## The run of a pivot -/

/-- Scaling the pivot row and then cancelling the column row by row makes a pivot. -/
theorem cancel_run (hs : g.Shaped (m + 1) (n + 1)) (hr : r ≤ m) (hcn : c < n + 1)
    (hone : g.entry r c = 1) (s : State) :
    ∃ g', g'.Shaped (m + 1) (n + 1) ∧ (∀ l, g'.entry r l = g.entry r l) ∧
      (∀ k ≠ r, k < m + 1 → ∀ l, g'.entry k l = g.entry k l - g.entry k c * g.entry r l) ∧
      ((List.range (m + 1)).forM fun i =>
        if (i : Int) = r then pure () else onTableau fun g => g.zeroOut i r c : Step Unit).run
        { s with tableau := g } = (.ok ⟨⟩, { s with tableau := g' }) := by
  let P : List Nat → State → Prop := fun done t => ∃ g', t = { s with tableau := g' } ∧
    g'.Shaped (m + 1) (n + 1) ∧ (∀ l, g'.entry r l = g.entry r l) ∧
    ∀ k ≠ r, ∀ l, g'.entry k l =
      if k ∈ done then g.entry k l - g.entry k c * g.entry r l else g.entry k l
  have hloop := run_forM (l := List.range (m + 1)) (P := P)
    (f := fun i => if (i : Int) = r then pure () else onTableau fun g => g.zeroOut i r c)
    (s := { s with tableau := g }) ?_ ⟨g, rfl, hs, fun _ => rfl, fun k _ l => by simp⟩
  · obtain ⟨t, hrun, g', rfl, h1, h2, h3⟩ := hloop
    refine ⟨g', h1, h2, ?_, hrun⟩
    intro k hk hkm l
    rw [h3 k hk l, if_pos (List.mem_range.mpr hkm)]
  · rintro before a after hl t ⟨g', rfl, h1, h2, h3⟩
    have ha : a < m + 1 := List.mem_range.mp (hl ▸ by simp)
    have hnew : a ∉ before := by
      have hnd := List.nodup_range (n := m + 1)
      rw [hl] at hnd
      intro hmem
      exact (List.disjoint_of_nodup_append hnd) hmem List.mem_cons_self
    by_cases har : a = r
    · refine ⟨_, by rw [if_pos (by exact_mod_cast har)]; rfl, g', rfl, h1, h2, ?_⟩
      intro k hk l
      have hiff : k ∈ before ++ [a] ↔ k ∈ before := by simp [har, hk]
      simp only [h3 k hk l, hiff]
    · have hone' : g'.entry r c = 1 := (h2 c).trans hone
      obtain ⟨g'', hz, h4, h5, h6⟩ := Grid.zeroOut_spec h1 ha (show r < m + 1 by omega) hcn
        (by rw [hone']; exact one_ne_zero)
      refine ⟨_, by rw [if_neg (by exact_mod_cast har)]; exact onTableau_run hz, g'', rfl, h4,
        fun l => by rw [h6 r (Ne.symm har), h2], ?_⟩
      intro k hk l
      by_cases hka : k = a
      · rw [hka, h5 l, hone', h2, h3 a har, h3 a har, if_neg hnew, if_neg hnew, div_one,
          if_pos (by simp)]
      · have hiff : k ∈ before ++ [a] ↔ k ∈ before := by simp [hka]
        simp only [h6 k hka l, h3 k hk l, hiff]

theorem negativeRhs?_eq_none (h : ∀ i ∈ s.constraintRows, 0 ≤ s.tableau.lastEntry i) :
    s.negativeRhs? = none := by
  unfold negativeRhs?
  rw [List.findSome?_eq_none_iff]
  intro i hi
  simp [not_lt.mpr (h i hi)]

theorem pivot_run (hc : s.Canonical m n) (hr : 1 ≤ r ∧ r ≤ m) (hu : s.Usable c)
    (hne : s.tableau.entry r c ≠ 0) (hrhs : s.KeepsRhs m n r c) :
    ∃ g, s.tableau.PivotOf g (m + 1) (n + 1) r c ∧ (pivot r c).run s = (.ok ⟨⟩, s.pivoted g r c) := by
  have hcn : c < n + 1 := (hc.usable_lt hu).trans (Nat.lt_succ_self n)
  obtain ⟨g₁, hd, hs₁, hd₁, hd₂⟩ :=
    Grid.divideToOne_spec hc.shaped (show r < m + 1 by omega) hcn hne
  have hone : g₁.entry r c = 1 := by rw [hd₁, div_self hne]
  obtain ⟨g, hs, h1, h2, hloop⟩ := cancel_run hs₁ hr.2 hcn hone s
  have hp : s.tableau.PivotOf g (m + 1) (n + 1) r c := by
    refine ⟨hs, fun l => (h1 l).trans (hd₁ l), ?_⟩
    intro k hk hkm l
    rw [h2 k hk hkm l, hd₂ k hk, hd₂ k hk, hd₁]
    ring
  refine ⟨g, hp, ?_⟩
  obtain ⟨col, hcol, -⟩ := hu
  have hrows : ∀ i ∈ (s.pivoted g r c).constraintRows, 0 ≤ (s.pivoted g r c).tableau.lastEntry i := by
    intro i hi
    simp only [constraintRows, pivoted, hs.rowCount_eq, List.mem_map, List.mem_range] at hi
    obtain ⟨a, ha, rfl⟩ := hi
    show 0 ≤ g.lastEntry (a + 1)
    rw [hs.lastEntry_eq (Nat.succ_pos m)]
    exact hrhs.rhs_nonneg hp (by omega) (by omega)
  unfold pivot
  rw [run_bind_of_ok (onTableau_run hd), run_bind_of_ok (run_get _)]
  simp only [hs₁.rowCount_eq]
  rw [run_bind_of_ok hloop]
  have hset := State.setBasis_eq (s := { s with tableau := g }) (i := r)
    (by change r < s.basis.length; rw [hc.basis_length]; omega) (some (c : Int))
  rw [run_bind_of_ok (onState_run hset), run_bind_of_ok (run_modify _ _), run_bind_of_ok (run_get _)]
  have hcolumn : (liftM ((s.pivoted g r c).column c) : Step Column).run (s.pivoted g r c) =
      (.ok col, s.pivoted g r c) := by
    rw [run_lift, column_eq (s := s.pivoted g r c) hcol]
  refine (run_bind_of_ok hcolumn).trans ?_
  split
  · rename_i what hwhat
    cases (negativeRhs?_eq_none hrows).symm.trans hwhat
  · rfl

/-! ## The invariants after a pivot -/

section Kept

variable (hp : s.tableau.PivotOf g (m + 1) (n + 1) r c) (hc : s.Canonical m n) (hr : 1 ≤ r ∧ r ≤ m)
  (hne : s.tableau.entry r c ≠ 0)

theorem Usable.congr {t : State} (h : t.columns = s.columns) : t.Usable j ↔ s.Usable j := by
  unfold Usable
  rw [h]

include hc hr in
/-- After the pivot the column is basic in the row, and the other rows keep theirs. -/
theorem Canonical.basicIn_pivoted_iff :
    (s.pivoted g r c).BasicIn i j ↔ (i = r ∧ j = c) ∨ (i ≠ r ∧ s.BasicIn i j) := by
  have hlen : r < s.basis.length := by rw [hc.basis_length]; omega
  unfold BasicIn pivoted
  by_cases hi : i = r
  · subst hi
    simp only [List.getElem?_set_self hlen, Option.some.injEq, ne_eq, not_true_eq_false, false_and,
      or_false, true_and]
    constructor
    · rintro ⟨-, h⟩
      exact_mod_cast h.symm
    · rintro rfl
      exact ⟨hr.1, rfl⟩
  · simp [List.getElem?_set_ne (Ne.symm hi), hi]

include hc hr in
/-- A column that is basic in another row is zero in the pivot row. -/
theorem Canonical.entry_pivotRow_of_basicIn (hi : i ≠ r) (hb : s.BasicIn i j) :
    s.tableau.entry r j = 0 :=
  hc.zero_elsewhere i j hb r hr.1 hr.2 (Ne.symm hi)

include hp hc hr hne in
theorem Canonical.pivoted (hu : s.Usable c) (hrhs : s.KeepsRhs m n r c) :
    (s.pivoted g r c).Canonical m n where
  shaped := hp.shaped
  columns_length := hc.columns_length
  basis_length := by simpa [State.pivoted] using hc.basis_length
  basis_zero := by
    have hr0 : r ≠ 0 := by omega
    simpa [State.pivoted, List.getElem?_set_ne hr0] using hc.basis_zero
  rhs_nonneg := fun k h1 h2 => hrhs.rhs_nonneg hp h1 h2
  slot := by
    intro i h1 h2
    by_cases hi : i = r
    · exact Or.inr ⟨c, (hc.basicIn_pivoted_iff hr).mpr (Or.inl ⟨hi, rfl⟩)⟩
    · rcases hc.slot i h1 h2 with hnone | ⟨j, hj⟩
      · exact Or.inl (by simpa [State.pivoted, List.getElem?_set_ne (Ne.symm hi)] using hnone)
      · exact Or.inr ⟨j, (hc.basicIn_pivoted_iff hr).mpr (Or.inr ⟨hi, hj⟩)⟩
  empty := by
    intro i h1 hnone l
    have hlen : r < s.basis.length := by rw [hc.basis_length]; omega
    by_cases hi : i = r
    · subst hi
      simp [State.pivoted, List.getElem?_set_self hlen] at hnone
    · have hold : s.basis[i]? = some none := by
        simpa [State.pivoted, List.getElem?_set_ne (Ne.symm hi)] using hnone
      have hz := hc.empty i h1 hold
      have him : i < m + 1 := hc.basis_length ▸ (List.getElem?_eq_some_iff.mp hold).1
      show g.entry i l = 0
      rw [hp.otherRow i hi him, hz l, hz c, zero_div, zero_mul, sub_zero]
  usable := by
    intro i j hb
    refine (Usable.congr rfl).mpr ?_
    rcases (hc.basicIn_pivoted_iff hr).mp hb with ⟨-, rfl⟩ | ⟨-, hb⟩
    · exact hu
    · exact hc.usable i j hb
  unit := by
    intro i j hb
    show g.entry i j = 1
    rcases (hc.basicIn_pivoted_iff hr).mp hb with ⟨rfl, rfl⟩ | ⟨hi, hb⟩
    · exact hp.entry_self hne
    · have him := hc.row_le hb
      rw [hp.entry_of_zero (by omega) (hc.entry_pivotRow_of_basicIn hr hi hb)]
      exact hc.unit i j hb
  zero_elsewhere := by
    intro i j hb k h1 h2 hk
    show g.entry k j = 0
    rcases (hc.basicIn_pivoted_iff hr).mp hb with ⟨rfl, rfl⟩ | ⟨hi, hb⟩
    · exact hp.entry_column hk (by omega) hne
    · rw [hp.entry_of_zero (by omega) (hc.entry_pivotRow_of_basicIn hr hi hb)]
      exact hc.zero_elsewhere i j hb k h1 h2 hk

include hp hc hr hne in
theorem Priced.pivoted (hpr : s.Priced) : (s.pivoted g r c).Priced := by
  intro i j hb
  show g.entry 0 j = 0
  rcases (hc.basicIn_pivoted_iff hr).mp hb with ⟨rfl, rfl⟩ | ⟨hi, hb⟩
  · exact hp.entry_column (by omega) (by omega) hne
  · rw [hp.entry_of_zero (by omega) (hc.entry_pivotRow_of_basicIn hr hi hb)]
    exact hpr i j hb

end Kept

/-! ## Pivots that leave no right side negative -/

section Keeps

variable (hc : s.Canonical m n)
include hc

/-- A pivot by the ratio test keeps the right sides. -/
theorem Binds.keepsRhs (hb : s.Binds c r) : s.KeepsRhs m n r c := by
  obtain ⟨hrm, hpos, hleast⟩ := hb
  have hr := hc.mem_constraintRows.mp hrm
  have hrn := hc.rhs_nonneg r hr.1 hr.2
  refine ⟨div_nonneg hrn hpos.le, ?_⟩
  intro k h1 h2 _
  have hkn := hc.rhs_nonneg k h1 h2
  rw [sub_nonneg]
  rcases le_or_gt (s.tableau.entry k c) 0 with hle | hgt
  · exact (mul_nonpos_of_nonpos_of_nonneg (div_nonpos_of_nonpos_of_nonneg hle hpos.le) hrn).trans hkn
  · have hratio := hleast k (hc.mem_constraintRows.mpr ⟨h1, h2⟩) hgt
    rw [hc.lastEntry_eq, hc.lastEntry_eq, le_div_iff₀ hgt] at hratio
    calc s.tableau.entry k c / s.tableau.entry r c * s.tableau.entry r n
        = s.tableau.entry r n / s.tableau.entry r c * s.tableau.entry k c := by ring
      _ ≤ s.tableau.entry k n := hratio

/-- A pivot in a row at level zero keeps the right sides. -/
theorem keepsRhs_of_zero (hz : s.tableau.entry r n = 0) : s.KeepsRhs m n r c := by
  refine ⟨by rw [hz, zero_div], ?_⟩
  intro k h1 h2 _
  rw [hz, mul_zero, sub_zero]
  exact hc.rhs_nonneg k h1 h2

end Keeps

end State

end ExactLP.Simplex
