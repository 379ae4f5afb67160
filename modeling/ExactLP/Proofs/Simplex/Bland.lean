import ExactLP.Proofs.Simplex.Uniqueness

/-!
# Proofs.Simplex.Bland — circuits of pivots

A `Circuit` is a sequence of pivots under degeneracy that comes back to its first basis.  Its pivots are all at
level zero.  The largest column that enters in a circuit also leaves in it, and when it does some tied row has a
smaller basic column: so no circuit takes, at every pivot, the smallest basic column among the tied rows.

* `Circuit.rhs_eq_zero`: every pivot of a circuit is in a row at level zero.
* `Circuit.row_eq_zero`: a basic column that enters somewhere in the circuit is at level zero.
* `Circuit.exists_departure`: some pivot does not take the smallest basic column.
-/

open Finset

namespace ExactLP.Simplex.State

open Grid (SameSystem)

variable {s t : State} {m n i j k l q a b length : Nat}

/-! ## One pivot -/

section Pivot

theorem Advances.basicIn_iff (h : s.Advances t m n j i) (hc : s.Canonical m n) :
    t.BasicIn k l ↔ (k = i ∧ l = j) ∨ (k ≠ i ∧ s.BasicIn k l) := by
  have hi := hc.mem_constraintRows.mp h.binds.1
  have hbasic : t.BasicIn k l ↔ (s.pivoted t.tableau i j).BasicIn k l := by
    rw [BasicIn, BasicIn, h.basis_eq]
    rfl
  rw [hbasic, hc.basicIn_pivoted_iff hi]

/-- What a pivot adds to the value in row 0, in the sense of the goal. -/
theorem Advances.objective_eq (h : s.Advances t m n j i) :
    t.tableau.entry 0 n * s.goal.sign = s.tableau.entry 0 n * s.goal.sign +
      -s.signedCost j / s.tableau.entry i j * s.tableau.entry i n := by
  have hi : i ≠ 0 := by
    obtain ⟨a, -, rfl⟩ := List.mem_map.mp h.binds.1
    exact Nat.succ_ne_zero a
  rw [h.pivotOf.otherRow 0 (Ne.symm hi) (Nat.succ_pos m), signedCost]
  ring

/-- A pivot never makes the value worse. -/
theorem Advances.objective_le (h : s.Advances t m n j i) (hc : s.Canonical m n) :
    s.tableau.entry 0 n * s.goal.sign ≤ t.tableau.entry 0 n * s.goal.sign := by
  have hi := hc.mem_constraintRows.mp h.binds.1
  rw [h.objective_eq]
  refine le_add_of_nonneg_right (mul_nonneg (div_nonneg ?_ h.binds.2.1.le) (hc.rhs_nonneg i hi.1 hi.2))
  exact neg_nonneg.mpr (mem_improving.mp h.improving).2.le

/-- A pivot that leaves the value is at level zero. -/
theorem Advances.rhs_eq_zero (h : s.Advances t m n j i)
    (heq : t.tableau.entry 0 n * s.goal.sign = s.tableau.entry 0 n * s.goal.sign) :
    s.tableau.entry i n = 0 := by
  have hgain : 0 < -s.signedCost j / s.tableau.entry i j :=
    div_pos (neg_pos.mpr (mem_improving.mp h.improving).2) h.binds.2.1
  rw [h.objective_eq, add_eq_left] at heq
  exact (mul_eq_zero.mp heq).resolve_left hgain.ne'

end Pivot

/-! ## Going around -/

section Around

variable {p : Nat → Prop} (hstep : ∀ a < length, p (a + 1) → p a)
include hstep

theorem descend (hab : a ≤ b) (hb : b ≤ length) (h : p b) : p a := by
  induction b, hab using Nat.le_induction with
  | base => exact h
  | succ b hab ih => exact ih (by omega) (hstep b (by omega) h)

/-- What holds before a step when it holds after it, all around a circuit, holds everywhere or nowhere. -/
theorem around (hclosed : p 0 → p length) (ha : a ≤ length) (hb : b ≤ length) (h : p a) : p b :=
  descend hstep hb le_rfl (hclosed (descend hstep (Nat.zero_le a) ha h))

end Around

/-- Pivots under degeneracy that come back to the first basis. -/
structure Circuit (x : Nat → State) (enter leave : Nat → Nat) (length m n : Nat) : Prop where
  canonical : ∀ a ≤ length, (x a).Canonical m n
  priced : ∀ a ≤ length, (x a).Priced
  degenerate : ∀ a < length, (x a).latched.degenerate = true
  advances : ∀ a < length, (x a).Advances (x (a + 1)) m n (enter a) (leave a)
  closed : (x length).basis = (x 0).basis

section Circuit

variable {x : Nat → State} {enter leave : Nat → Nat} (h : Circuit x enter leave length m n)
include h

theorem Circuit.sameProblem (ha : a ≤ length) : (x 0).SameProblem (x a) m n := by
  induction a with
  | zero => exact .refl _ _ _
  | succ a ih => exact (ih (by omega)).trans ((h.advances a ha).sameProblem (h.canonical a (by omega)))

theorem Circuit.basicIn_closed : (x length).BasicIn k l ↔ (x 0).BasicIn k l := by
  rw [BasicIn, BasicIn, h.closed]

/-- The value in row 0 is the same all around. -/
theorem Circuit.objective_eq (ha : a ≤ length) (hb : b ≤ length) :
    (x a).tableau.entry 0 n * (x 0).goal.sign = (x b).tableau.entry 0 n * (x 0).goal.sign := by
  have hlast : (x length).tableau = (x 0).tableau :=
    (h.canonical 0 (Nat.zero_le _)).tableau_eq (h.canonical length le_rfl) h.closed
      (h.sameProblem le_rfl).system (h.priced 0 (Nat.zero_le _)) (h.priced length le_rfl)
  have hle : ∀ {a b}, a ≤ length → b ≤ length →
      (x a).tableau.entry 0 n * (x 0).goal.sign ≤ (x b).tableau.entry 0 n * (x 0).goal.sign := by
    intro a b ha hb
    refine around (p := fun a => (x a).tableau.entry 0 n * (x 0).goal.sign ≤
      (x b).tableau.entry 0 n * (x 0).goal.sign) ?_ ?_ hb ha le_rfl
    · intro c hc hnext
      have hone := (h.advances c hc).objective_le (h.canonical c hc.le)
      rw [(h.sameProblem hc.le).goal_eq] at hone
      exact hone.trans hnext
    · intro h0
      rw [hlast]
      exact h0
  exact le_antisymm (hle ha hb) (hle hb ha)

/-- Every pivot is in a row at level zero. -/
theorem Circuit.rhs_eq_zero (ha : a < length) : (x a).tableau.entry (leave a) n = 0 := by
  refine (h.advances a ha).rhs_eq_zero ?_
  rw [(h.sameProblem ha.le).goal_eq]
  exact h.objective_eq ha ha.le

/-- The right sides are the same all around. -/
theorem Circuit.rhs_eq (hk : k ≤ m) (ha : a ≤ length) :
    (x a).tableau.entry k n = (x 0).tableau.entry k n := by
  induction a with
  | zero => rfl
  | succ a ih =>
    rw [(h.advances a ha).pivotOf.entry_of_zero (by omega) (h.rhs_eq_zero ha), ih (by omega)]

/-- A column that enters is not basic before. -/
theorem Circuit.not_basicIn_enter (ha : a < length) : ¬(x a).BasicIn k (enter a) :=
  (h.canonical a ha.le).rowOf?_eq_none_iff.mp
    ((h.canonical a ha.le).rowOf?_of_improving (h.priced a ha.le) (h.advances a ha).improving) k

/-- A column that is basic at one place and not at another enters somewhere. -/
theorem Circuit.exists_enter (ha : a ≤ length) (hb : b ≤ length) (hin : ∃ k, (x a).BasicIn k l)
    (hout : ∀ k, ¬(x b).BasicIn k l) : ∃ c < length, enter c = l := by
  by_contra hno
  have hback : ∀ c < length, (∃ k, (x (c + 1)).BasicIn k l) → ∃ k, (x c).BasicIn k l := by
    rintro c hc ⟨k, hk⟩
    rcases ((h.advances c hc).basicIn_iff (h.canonical c hc.le)).mp hk with ⟨-, rfl⟩ | ⟨-, hold⟩
    · exact absurd ⟨c, hc, rfl⟩ hno
    · exact ⟨k, hold⟩
  have hclosed : (∃ k, (x 0).BasicIn k l) → ∃ k, (x length).BasicIn k l := fun ⟨k, hk⟩ =>
    ⟨k, h.basicIn_closed.mpr hk⟩
  obtain ⟨k, hk⟩ := around (p := fun c => ∃ k, (x c).BasicIn k l) hback hclosed ha hb hin
  exact hout k hk

/-- A column that enters leaves somewhere. -/
theorem Circuit.exists_leave (hb : b < length) : ∃ a < length, (x a).BasicIn (leave a) (enter b) := by
  by_contra hno
  have hback : ∀ c < length, (¬∃ k, (x (c + 1)).BasicIn k (enter b)) → ¬∃ k, (x c).BasicIn k (enter b) := by
    rintro c hc hnext ⟨k, hk⟩
    have hkeep : k ≠ leave c := by
      rintro rfl
      exact hno ⟨c, hc, hk⟩
    exact hnext ⟨k, ((h.advances c hc).basicIn_iff (h.canonical c hc.le)).mpr (Or.inr ⟨hkeep, hk⟩)⟩
  have hbefore : ¬∃ k, (x b).BasicIn k (enter b) := fun ⟨k, hk⟩ => h.not_basicIn_enter hb hk
  have hclosed : (¬∃ k, (x 0).BasicIn k (enter b)) → ¬∃ k, (x length).BasicIn k (enter b) := fun h0 ⟨k, hk⟩ =>
    h0 ⟨k, h.basicIn_closed.mp hk⟩
  have hafter := around (p := fun c => ¬∃ k, (x c).BasicIn k (enter b)) hback hclosed hb.le
    (show b + 1 ≤ length from hb) hbefore
  exact hafter ⟨leave b, ((h.advances b hb).basicIn_iff (h.canonical b hb.le)).mpr (Or.inl ⟨rfl, rfl⟩)⟩

/-- A row of a basic column that enters somewhere is at level zero. -/
theorem Circuit.row_eq_zero (ha : a ≤ length) (hb : b < length) (hbasic : (x a).BasicIn k (enter b)) :
    (x a).tableau.entry k n = 0 := by
  have hkm := (h.canonical a ha).row_le hbasic
  by_cases hpivot : ∃ c < length, leave c = k
  · obtain ⟨c, hc, rfl⟩ := hpivot
    rw [h.rhs_eq hkm ha, ← h.rhs_eq hkm hc.le]
    exact h.rhs_eq_zero hc
  · have hback : ∀ c < length, (x (c + 1)).BasicIn k (enter b) → (x c).BasicIn k (enter b) := by
      intro c hc hk
      rcases ((h.advances c hc).basicIn_iff (h.canonical c hc.le)).mp hk with ⟨rfl, -⟩ | ⟨-, hold⟩
      · exact absurd ⟨c, hc, rfl⟩ hpivot
      · exact hold
    have hlater := around (p := fun c => (x c).BasicIn k (enter b)) hback h.basicIn_closed.mpr ha hb.le hbasic
    exact absurd hlater (h.not_basicIn_enter hb)

end Circuit

/-! ## The largest column that enters -/

section Largest

variable {x : Nat → State} {enter leave : Nat → Nat} (h : Circuit x enter leave length m n)
include h

/-- Along the direction of a column that enters at `a`, the costs at `b` sum to its cost at `a`. -/
theorem Circuit.sum_cost_direction (ha : a < length) (hb : b < length) :
    ∑ l ∈ range n, (x b).tableau.entry 0 l * (x a).direction (enter a) l =
      (x a).tableau.entry 0 (enter a) := by
  have hca := h.canonical a ha.le
  have hcb := h.canonical b hb.le
  have himp := (h.advances a ha).improving
  have hrow := hca.rowOf?_of_improving (h.priced a ha.le) himp
  have hlt := hca.usable_lt (mem_improving.mp himp).1
  have hsys := ((h.sameProblem ha.le).system.symm).trans (h.sameProblem hb.le).system
  have hcost := hsys.cost_eq _ (hca.solves_moved hrow hlt 1)
  rw [hca.residual_zero_moved hrow hlt (h.priced a ha.le), residual_moved, one_mul, one_mul,
    Grid.residual] at hcost
  have hpoint : ∑ l ∈ range n, (x b).tableau.entry 0 l * (x a).basicPoint l = 0 := by
    apply sum_eq_zero
    intro l _
    cases hr : (x a).rowOf? l with
    | none => rw [basicPoint_of_rowOf? hr, mul_zero]
    | some k =>
      have hk := hca.rowOf?_eq_some_iff.mp hr
      by_cases hin : ∃ k', (x b).BasicIn k' l
      · obtain ⟨k', hk'⟩ := hin
        rw [h.priced b hb.le k' l hk', zero_mul]
      · obtain ⟨c, hc, rfl⟩ := h.exists_enter ha.le hb.le ⟨k, hk⟩ fun k' hk' => hin ⟨k', hk'⟩
        rw [hca.basicPoint_of_basicIn hk, h.row_eq_zero ha.le hc hk, mul_zero]
  have hobj : (x b).tableau.entry 0 n = (x a).tableau.entry 0 n := by
    rw [h.rhs_eq (Nat.zero_le m) hb.le, h.rhs_eq (Nat.zero_le m) ha.le]
  rw [hpoint, hobj] at hcost
  linarith

/-- When the largest column that enters leaves, a tied row has a smaller basic column. -/
theorem Circuit.exists_smaller (ha : a < length) (hb : b < length)
    (hmax : ∀ c < length, enter c ≤ enter b) (hleave : (x a).BasicIn (leave a) (enter b)) :
    ∃ k l, (x a).Binds (enter a) k ∧ (x a).BasicIn k l ∧ l < enter b := by
  have hca := h.canonical a ha.le
  have himp := (h.advances a ha).improving
  have hrow := hca.rowOf?_of_improving (h.priced a ha.le) himp
  have hgoal : (x a).goal = (x b).goal := by rw [(h.sameProblem ha.le).goal_eq, (h.sameProblem hb.le).goal_eq]
  have hcols : (x a).columns = (x b).columns := by
    rw [(h.sameProblem ha.le).columns_eq, (h.sameProblem hb.le).columns_eq]
  -- at `b` no usable column below the entering one improves
  have hbelow : ∀ l, (x a).Usable l → l < enter b →
      0 ≤ (x b).tableau.entry 0 l * (x b).goal.sign := by
    intro l hu hl
    by_contra hneg
    have hmem : l ∈ (x b).improving :=
      mem_improving.mpr ⟨(Usable.congr hcols).mp hu, not_le.mp hneg⟩
    have hle := ((h.advances b hb).first (h.degenerate b hb)).1 l hmem
    omega
  by_contra hno
  have hterm : ∀ l ∈ range n, 0 ≤ (x b).tableau.entry 0 l * (x a).direction (enter a) l * (x b).goal.sign := by
    intro l _
    by_cases hle : l = enter a
    · have hne : l ≠ enter b := by
        rintro rfl
        exact h.not_basicIn_enter ha (hle ▸ hleave)
      have hlt : l < enter b := lt_of_le_of_ne (hle ▸ hmax a ha) hne
      rw [direction, if_pos hle, mul_one]
      exact hbelow l (hle ▸ (mem_improving.mp himp).1) hlt
    · cases hr : (x a).rowOf? l with
      | none =>
        rw [direction, if_neg hle, hr, mul_zero, zero_mul]
      | some k =>
        have hk := hca.rowOf?_eq_some_iff.mp hr
        rw [hca.direction_of_basicIn hrow hk]
        by_cases hin : ∃ k', (x b).BasicIn k' l
        · obtain ⟨k', hk'⟩ := hin
          rw [h.priced b hb.le k' l hk', zero_mul, zero_mul]
        · obtain ⟨c, hc, hcl⟩ := h.exists_enter ha.le hb.le ⟨k, hk⟩ fun k' hk' => hin ⟨k', hk'⟩
          rcases lt_or_eq_of_le (hcl ▸ hmax c hc) with hlt | heq
          · -- a smaller column: its entry is not positive, or its row would be tied
            have hentry : (x a).tableau.entry k (enter a) ≤ 0 := by
              by_contra hpos
              have hzero : (x a).tableau.entry k n = 0 := h.row_eq_zero ha.le hc (hcl ▸ hk)
              refine hno ⟨k, l, ⟨hca.mem_constraintRows.mpr ⟨hk.1, hca.row_le hk⟩, not_le.mp hpos,
                ?_⟩, hk, hlt⟩
              intro k' hk' hpos'
              have hk'' := hca.mem_constraintRows.mp hk'
              rw [hca.lastEntry_eq, hca.lastEntry_eq, hzero, zero_div]
              exact div_nonneg (hca.rhs_nonneg k' hk''.1 hk''.2) hpos'.le
            have hcost := hbelow l (hca.usable k l hk) hlt
            calc (0 : Rat) ≤ (x b).tableau.entry 0 l * (x b).goal.sign * -(x a).tableau.entry k (enter a) :=
                  mul_nonneg hcost (neg_nonneg.mpr hentry)
              _ = (x b).tableau.entry 0 l * -(x a).tableau.entry k (enter a) * (x b).goal.sign := by ring
          · -- the largest column itself: it improves at `b`, and its entry at `a` is the pivot
            rw [heq]
            have hki : k = leave a := hca.row_unique (heq ▸ hk) hleave
            have hpos : 0 < (x a).tableau.entry k (enter a) := hki ▸ (h.advances a ha).binds.2.1
            have hcost : (x b).tableau.entry 0 (enter b) * (x b).goal.sign < 0 :=
              (mem_improving.mp (h.advances b hb).improving).2
            calc (0 : Rat) ≤ (x b).tableau.entry 0 (enter b) * (x b).goal.sign *
                    -(x a).tableau.entry k (enter a) :=
                  mul_nonneg_of_nonpos_of_nonpos hcost.le (neg_nonpos.mpr hpos.le)
              _ = (x b).tableau.entry 0 (enter b) * -(x a).tableau.entry k (enter a) * (x b).goal.sign := by
                  ring
  have hsum := sum_nonneg hterm
  rw [← sum_mul, h.sum_cost_direction ha hb, ← hgoal] at hsum
  exact absurd hsum (not_le.mpr (mem_improving.mp himp).2)

/-- In every circuit some pivot does not take the smallest basic column among the tied rows. -/
theorem Circuit.exists_departure (hpos : 0 < length) :
    ∃ a < length, ∃ k q l, (x a).Binds (enter a) k ∧ (x a).BasicIn (leave a) q ∧ (x a).BasicIn k l ∧ l < q := by
  obtain ⟨b, hb, hmax⟩ := exists_max_image (range length) enter ⟨0, mem_range.mpr hpos⟩
  have hbl := mem_range.mp hb
  obtain ⟨a, ha, hleave⟩ := h.exists_leave hbl
  obtain ⟨k, l, hbinds, hbasic, hlt⟩ :=
    h.exists_smaller ha hbl (fun c hc => hmax c (mem_range.mpr hc)) hleave
  exact ⟨a, ha, k, enter b, l, hbinds, hleave, hbasic, hlt⟩

end Largest

end ExactLP.Simplex.State
