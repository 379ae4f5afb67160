import ExactLP.Proofs.Simplex.Pricing

/-!
# Proofs.Simplex.PhaseOne — the sum of the artificial columns

Phase one runs on the weights that count the artificial columns.  They are not negative, so the phase is
never unbounded.  Where it ends with a positive sum, no point is admitted; otherwise the artificial columns
are zero at the basic solution.

* `PhaseOneDone`: what a completed phase one leaves.
* `phaseOne_cases`: the outcomes of phase one.
-/

open Finset

namespace ExactLP.Simplex.State

variable {s t : State} {m n i j : Nat} {x : ColumnPoint}

/-! ## Weights of artificial columns -/

section Weights

theorem artificialWeight_nonneg (s : State) (j : Nat) : 0 ≤ s.artificialWeight j := by
  unfold artificialWeight columnValue
  cases s.columns[j]? with
  | none => exact le_rfl
  | some c =>
    show (0 : Rat) ≤ if c.role.isArtificial = true then 1 else 0
    split
    · exact zero_le_one
    · exact le_rfl

theorem artificialWeight_eq_one {c : Column} (hcol : s.columns[j]? = some c)
    (ha : c.role.isArtificial = true) : s.artificialWeight j = 1 := by
  rw [artificialWeight, columnValue, hcol]
  simp only [ha, if_true]

/-- A point that a state admits carries no artificial weight. -/
theorem Admits.artificialWeight_mul (hx : s.Admits x) (j : Nat) : s.artificialWeight j * x j = 0 := by
  unfold artificialWeight columnValue
  cases hcol : s.columns[j]? with
  | none => exact zero_mul _
  | some c =>
    show (if c.role.isArtificial = true then (1 : Rat) else 0) * x j = 0
    by_cases ha : c.role.isArtificial = true
    · have hz := hx.zero j c hcol (Or.inl (by rw [Role.isForbidden, ha, Bool.true_or]))
      rw [hz, mul_zero]
    · rw [if_neg ha, zero_mul]

theorem Admits.sum_artificialWeight (hx : s.Admits x) (n : Nat) :
    ∑ l ∈ range n, s.artificialWeight l * x l = 0 :=
  sum_eq_zero fun l _ => hx.artificialWeight_mul l

end Weights

/-! ## The outcomes -/

section Outcomes

/-- What a completed phase one leaves: the problem of the given state with an optimal tableau whose
artificial columns sum to zero. -/
structure PhaseOneDone (s t : State) (m n : Nat) : Prop where
  canonical : t.Canonical m n
  priced : t.Priced
  prices : t.tableau.Prices m n t.artificialWeight
  columns_eq : t.columns = s.columns
  solves_iff : ∀ x, t.tableau.Solves m n x ↔ s.tableau.Solves m n x
  goal_eq : t.goal = .minimize
  optimal : t.improving = []
  sum_nonpos : t.tableau.entry 0 n ≤ 0

theorem PhaseOneDone.admits_iff (h : s.PhaseOneDone t m n) (hc : s.Canonical m n) :
    t.Admits x ↔ s.Admits x := by
  rw [hc.admits_iff, h.canonical.admits_iff, h.columns_eq, h.solves_iff]

theorem PhaseOneDone.sum_eq_zero (h : s.PhaseOneDone t m n) : t.tableau.entry 0 n = 0 := by
  refine le_antisymm h.sum_nonpos ?_
  rw [← h.canonical.weight_basicPoint h.prices h.priced]
  exact sum_nonneg fun l _ => mul_nonneg (t.artificialWeight_nonneg l) (h.canonical.basicPoint_nonneg l)

/-- After phase one a basic artificial column is at level zero. -/
theorem PhaseOneDone.rhs_eq_zero (h : s.PhaseOneDone t m n) (hb : t.BasicIn i j) {c : Column}
    (hcol : t.columns[j]? = some c) (ha : c.role.isArtificial = true) : t.tableau.entry i n = 0 := by
  have hsum := h.canonical.weight_basicPoint h.prices h.priced
  have hle := single_le_sum (f := fun l => t.artificialWeight l * t.basicPoint l)
    (fun l _ => mul_nonneg (t.artificialWeight_nonneg l) (h.canonical.basicPoint_nonneg l))
    (mem_range.mpr (h.canonical.basic_lt hb))
  rw [hsum, h.sum_eq_zero, artificialWeight_eq_one hcol ha, one_mul,
    h.canonical.basicPoint_of_basicIn hb] at hle
  exact le_antisymm hle (h.canonical.rhs_nonneg i hb.1 (h.canonical.row_le hb))

/-- After phase one an admitted point is zero on every column of negative cost. -/
theorem PhaseOneDone.eq_zero_of_cost_neg (h : s.PhaseOneDone t m n) (hx : t.Admits x) (hjn : j < n)
    (hcost : t.tableau.entry 0 j < 0) : x j = 0 := by
  obtain ⟨hnn, -, hsol⟩ := h.canonical.admits_iff.mp hx
  have hsum := weight_of_solves h.prices hsol
  rw [hx.sum_artificialWeight, h.sum_eq_zero, zero_sub] at hsum
  have hterm : ∀ l ∈ range n, 0 ≤ -(t.tableau.entry 0 l * x l) := by
    intro l hl
    have hln := mem_range.mp hl
    by_cases hu : t.Usable l
    · have hle : t.tableau.entry 0 l ≤ 0 := by
        by_contra hpos
        have hmem : l ∈ t.improving := by
          refine mem_improving.mpr ⟨hu, ?_⟩
          rw [signedCost, h.goal_eq]
          norm_num [Goal.sign]
          exact not_le.mp hpos
        rw [h.optimal] at hmem
        exact absurd hmem (by simp)
      exact neg_nonneg.mpr (mul_nonpos_of_nonpos_of_nonneg hle (hnn l hln))
    · rw [hx.zero_of_not_usable (by rw [h.canonical.columns_length]; exact hln) hu, mul_zero, neg_zero]
  have hone := single_le_sum hterm (mem_range.mpr hjn)
  rw [sum_neg_distrib, ← hsum] at hone
  have hprod : 0 ≤ t.tableau.entry 0 j * x j := neg_nonpos.mp hone
  by_contra hne
  have hxpos : 0 < x j := lt_of_le_of_ne (hnn j hjn) (Ne.symm hne)
  exact absurd hprod (not_le.mpr (mul_neg_of_neg_of_pos hcost hxpos))

/-- Phase one completes, shows that no point is admitted, or reaches the limit. -/
theorem phaseOne_cases {setting : Setting} (hfair : setting.tieBreak.Fair) (hc : s.Canonical m n) :
    ∃ r t, (phaseOne setting).run s = (r, t) ∧
      ((r = .ok ⟨⟩ ∧ s.PhaseOneDone t m n) ∨
        (∃ report, r = .error (.refusing .infeasible report none) ∧ ∀ x, ¬s.Admits x) ∨
        ∃ report, r = .error (.refusing .iterationLimit report none)) := by
  obtain ⟨s₁, hstart, hc₁, hp₁, hcol₁, -, hgoal₁, -, -, hsol₁, hprice₁⟩ := startPhaseOne_run hc
  obtain ⟨r, t, hrun, hct, hpt, hsame, hout⟩ := run_cases hfair setting.limit hc₁ hp₁
  have hcol : t.columns = s.columns := hsame.columns_eq.trans hcol₁
  have hgoal : t.goal = .minimize := hsame.goal_eq.trans hgoal₁
  have hprice : t.tableau.Prices m n t.artificialWeight := by
    have hweight : t.artificialWeight = s₁.artificialWeight := by
      rw [artificialWeight, artificialWeight, hsame.columns_eq]
    rw [hweight]
    exact hprice₁.of_sameSystem hsame.system
  have hsol : ∀ x, t.tableau.Solves m n x ↔ s.tableau.Solves m n x := fun x =>
    (hsame.system.solves_iff x).symm.trans (hsol₁ x)
  unfold phaseOne
  rw [run_bind_of_ok hstart]
  rcases hout with ⟨rfl, hopt⟩ | ⟨rfl, j, hj, hnil⟩ | ⟨report, rfl⟩
  · rw [run_bind_of_ok hrun]
    have hlast : t.tableau.lastEntry 0 = t.tableau.entry 0 n := hct.lastEntry_eq 0
    by_cases hpos : 0 < t.tableau.entry 0 n
    · set report := s!"phase 1 ended with infeasibility {exactText (t.tableau.lastEntry 0)}"
      refine ⟨.error (.refusing .infeasible report none), t, ?_, Or.inr (Or.inl ⟨_, rfl, ?_⟩)⟩
      · show (if 0 < t.tableau.lastEntry 0 then _ else _ : Step Unit).run t = _
        rw [if_pos (hlast ▸ hpos)]
        rfl
      · intro x hx
        have hxt : t.Admits x := by
          rw [hct.admits_iff, hcol, hsol]
          exact hc.admits_iff.mp hx
        have hle := hct.weight_le_of_optimal hprice hopt hxt
        rw [hxt.sum_artificialWeight, hgoal] at hle
        norm_num [Goal.sign] at hle
        exact absurd hpos (not_lt.mpr hle)
    · refine ⟨_, t, ?_, Or.inl ⟨rfl, hct, hpt, hprice, hcol, hsol, hgoal, hopt, not_lt.mp hpos⟩⟩
      show (if 0 < t.tableau.lastEntry 0 then _ else _ : Step Unit).run t = _
      rw [if_neg (hlast ▸ hpos)]
      rfl
  · obtain ⟨v, hv, hlt⟩ := hct.exists_weight_gt hprice hpt hj 0
    obtain ⟨hnn, -, -⟩ := hct.moved_of_unbounded hpt hj hnil hv
    have hsum : 0 ≤ ∑ l ∈ range n, t.artificialWeight l * t.moved j v l :=
      sum_nonneg fun l _ => mul_nonneg (t.artificialWeight_nonneg l) (hnn l)
    rw [hgoal] at hlt
    norm_num [Goal.sign] at hlt
    exact absurd hsum (not_le.mpr hlt)
  · exact ⟨_, t, run_bind_of_error hrun, Or.inr (Or.inr ⟨report, rfl⟩)⟩

theorem phaseOneDone_of_ok {setting : Setting} (hfair : setting.tieBreak.Fair) (hc : s.Canonical m n)
    (hrun : (phaseOne setting).run s = (.ok ⟨⟩, t)) : s.PhaseOneDone t m n := by
  obtain ⟨r, t', hrun', hout⟩ := phaseOne_cases hfair hc
  obtain ⟨rfl, rfl⟩ := Prod.mk.inj (hrun'.symm.trans hrun)
  rcases hout with ⟨-, hdone⟩ | ⟨report, heq, -⟩ | ⟨report, heq⟩
  · exact hdone
  · exact absurd heq (by simp)
  · exact absurd heq (by simp)

end Outcomes

end ExactLP.Simplex.State
