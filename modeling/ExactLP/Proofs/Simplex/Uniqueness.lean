import ExactLP.Proofs.Simplex.Running

/-!
# Proofs.Simplex.Uniqueness — the basis determines the tableau

Two canonical and priced states of one system with the same basis have the same tableau.  Under degeneracy a
step depends on the tableau, the columns, the basis and the goal only, so states that agree on these go on
alike.

* `Canonical.tableau_eq`: the basis determines the tableau.
* `Alike`, `Alike.advances`: the same steps follow.
-/

open Finset

namespace ExactLP.Simplex.State

open Grid (SameSystem)

variable {s t u : State} {m n i j k b : Nat}

/-! ## One tableau for each basis -/

section Unique

/-- What the columns that are not basic add at a point with one of them raised. -/
theorem sum_nonbasic_moved (hj : s.rowOf? j = none) (hjn : j < n) (f : Nat → Rat) (v : Rat) :
    ∑ l ∈ range n with s.rowOf? l = none, f l * s.moved j v l = f j * v := by
  rw [sum_eq_single_of_mem j (mem_filter.mpr ⟨mem_range.mpr hjn, hj⟩), moved_self hj]
  intro l hl hne
  rw [moved_of_ne (mem_filter.mp hl).2 hne, mul_zero]

theorem sum_nonbasic_eq_zero (f : Nat → Rat) (n : Nat) :
    ∑ l ∈ range n with s.rowOf? l = none, f l * s.basicPoint l = 0 :=
  sum_eq_zero fun l hl => by rw [basicPoint_of_rowOf? (mem_filter.mp hl).2, mul_zero]

/-- The value in row 0 depends on which columns are basic only, and not on their rows. -/
theorem Canonical.value_eq (hs : s.Canonical m n) (ht : t.Canonical m n) (hps : s.Priced) (hpt : t.Priced)
    (hsys : s.tableau.SameSystem t.tableau m n) (hbasic : ∀ l, t.rowOf? l = none ↔ s.rowOf? l = none) :
    t.tableau.entry 0 n = s.tableau.entry 0 n := by
  have hcost := hsys.cost_eq _ hs.solves_basicPoint
  rw [hs.residual_zero_basicPoint hps, Grid.residual, ht.sum_objective hpt] at hcost
  simp only [hbasic] at hcost
  rw [sum_nonbasic_eq_zero] at hcost
  linarith

variable (hs : s.Canonical m n) (ht : t.Canonical m n) (hb : t.basis = s.basis)
include hb

theorem basicIn_congr : t.BasicIn i j ↔ s.BasicIn i j := by
  rw [BasicIn, BasicIn, hb]

include hs ht

theorem Canonical.rowOf?_congr (j : Nat) : t.rowOf? j = s.rowOf? j := by
  apply Option.ext
  intro i
  rw [ht.rowOf?_eq_some_iff, hs.rowOf?_eq_some_iff, basicIn_congr hb]

variable (hsys : s.tableau.SameSystem t.tableau m n)
include hsys

theorem Canonical.rhs_eq (hbi : s.BasicIn i b) : t.tableau.entry i n = s.tableau.entry i n := by
  have hres := (hsys.solves_iff _).mp hs.solves_basicPoint i hbi.1 (hs.row_le hbi)
  rw [Grid.residual, ht.sum_row ((basicIn_congr hb).mpr hbi), hs.basicPoint_of_basicIn hbi] at hres
  simp only [hs.rowOf?_congr ht hb] at hres
  rw [sum_nonbasic_eq_zero] at hres
  linarith

/-- Entries of the constraint rows in columns that are not basic. -/
theorem Canonical.entry_eq (hbi : s.BasicIn i b) (hj : s.rowOf? j = none) (hjn : j < n) :
    t.tableau.entry i j = s.tableau.entry i j := by
  have hres := (hsys.solves_iff _).mp (hs.solves_moved hj hjn 1) i hbi.1 (hs.row_le hbi)
  rw [Grid.residual, ht.sum_row ((basicIn_congr hb).mpr hbi), hs.moved_of_basicIn hj hbi,
    hs.rhs_eq ht hb hsys hbi] at hres
  simp only [hs.rowOf?_congr ht hb] at hres
  rw [sum_nonbasic_moved hj hjn] at hres
  linarith

variable (hps : s.Priced) (hpt : t.Priced)
include hps hpt

theorem Canonical.cost_rhs_eq : t.tableau.entry 0 n = s.tableau.entry 0 n :=
  hs.value_eq ht hps hpt hsys fun l => by rw [hs.rowOf?_congr ht hb]

theorem Canonical.cost_eq (hj : s.rowOf? j = none) (hjn : j < n) :
    t.tableau.entry 0 j = s.tableau.entry 0 j := by
  have hcost := hsys.cost_eq _ (hs.solves_moved hj hjn 1)
  rw [hs.residual_zero_moved hj hjn hps, Grid.residual, ht.sum_objective hpt] at hcost
  simp only [hs.rowOf?_congr ht hb] at hcost
  rw [sum_nonbasic_moved hj hjn, hs.cost_rhs_eq ht hb hsys hps hpt] at hcost
  linarith

/-- Canonical and priced states of one system with the same basis have the same tableau. -/
theorem Canonical.tableau_eq : t.tableau = s.tableau := by
  apply ht.shaped.ext hs.shaped
  intro i him j hjn
  rcases Nat.eq_zero_or_pos i with rfl | hi
  · rcases Nat.lt_succ_iff_lt_or_eq.mp hjn with hlt | rfl
    · cases hr : s.rowOf? j with
      | none => exact hs.cost_eq ht hb hsys hps hpt hr hlt
      | some k =>
        have hbk := hs.rowOf?_eq_some_iff.mp hr
        rw [hps k j hbk, hpt k j ((basicIn_congr hb).mpr hbk)]
    · exact hs.cost_rhs_eq ht hb hsys hps hpt
  · rcases hs.slot i hi (by omega) with hnone | ⟨b, hbi⟩
    · rw [hs.empty i hi hnone, ht.empty i hi (hb ▸ hnone)]
    · rcases Nat.lt_succ_iff_lt_or_eq.mp hjn with hlt | rfl
      · cases hr : s.rowOf? j with
        | none => exact hs.entry_eq ht hb hsys hbi hr hlt
        | some k =>
          have hbk := hs.rowOf?_eq_some_iff.mp hr
          have hbk' := (basicIn_congr hb).mpr hbk
          by_cases hik : i = k
          · rw [hik, hs.unit k j hbk, ht.unit k j hbk']
          · rw [hs.zero_elsewhere k j hbk i hi (by omega) hik, ht.zero_elsewhere k j hbk' i hi (by omega) hik]
      · exact hs.rhs_eq ht hb hsys hbi

end Unique

/-! ## States that go on alike -/

section Alike

/-- `t` and `u` agree on what a step under degeneracy reads. -/
structure Alike (t u : State) : Prop where
  tableau_eq : u.tableau = t.tableau
  columns_eq : u.columns = t.columns
  basis_eq : u.basis = t.basis
  goal_eq : u.goal = t.goal
  degenerate : t.latched.degenerate = true ∧ u.latched.degenerate = true

variable {t' u' : State} {i' j' : Nat}

theorem Alike.improving_eq (h : t.Alike u) : u.improving = t.improving := by
  unfold improving signedCost
  rw [h.tableau_eq, h.columns_eq, h.goal_eq]

theorem Alike.ratios_eq (h : t.Alike u) (j : Nat) : u.ratios j = t.ratios j := by
  unfold ratios constraintRows
  rw [h.tableau_eq]

theorem Alike.binds_iff (h : t.Alike u) : u.Binds j i ↔ t.Binds j i := by
  unfold Binds constraintRows
  rw [h.tableau_eq]

theorem Advances.latched (h : t.Advances t' m n j i) (hd : t.latched.degenerate = true) :
    t'.latched.degenerate = true := by
  show (t'.degenerate || t'.hasZeroRhs) = true
  rw [h.degenerate_eq, hd, Bool.true_or]

/-- Steps from states that go on alike choose the same column and row and lead to states that go on alike. -/
theorem Alike.advances (h : t.Alike u) (ht : t.Advances t' m n j i) (hu : u.Advances u' m n j' i') :
    t'.Alike u' := by
  obtain ⟨hjt, hit, -⟩ := ht.first h.degenerate.1
  obtain ⟨hju, hiu, -⟩ := hu.first h.degenerate.2
  have hj : j' = j := by
    have himp := h.improving_eq
    exact le_antisymm (hju j (himp ▸ ht.improving)) (hjt j' (himp ▸ hu.improving))
  subst hj
  have hi : i' = i := le_antisymm (hiu i (h.binds_iff.mpr ht.binds)) (hit i' (h.binds_iff.mp hu.binds))
  subst hi
  refine ⟨?_, ?_, ?_, ?_, ht.latched h.degenerate.1, hu.latched h.degenerate.2⟩
  · apply hu.pivotOf.shaped.ext ht.pivotOf.shaped
    intro k hk l _
    by_cases hki : k = i'
    · rw [hki, hu.pivotOf.pivotRow, ht.pivotOf.pivotRow, h.tableau_eq]
    · rw [hu.pivotOf.otherRow k hki hk, ht.pivotOf.otherRow k hki hk, h.tableau_eq]
  · rw [hu.columns_eq, ht.columns_eq, h.columns_eq]
  · rw [hu.basis_eq, ht.basis_eq, h.basis_eq]
  · rw [hu.goal_eq, ht.goal_eq, h.goal_eq]

end Alike

end ExactLP.Simplex.State
