import ExactLP.Proofs.Simplex.Pivoting

/-!
# Proofs.Simplex.Running — steps and runs from a canonical state

A step from a canonical and priced state finds an optimum, an unbounded column or the limit, or it makes a
pivot that satisfies `Advances`.  A run keeps the invariants and the problem, by induction on its limit.

* `iterate_cases`, `run_cases`: the outcomes of a step and of a run.
* `weight_le_of_optimal`: no point that a state admits is better than the basic solution of an optimal one.
* `weight_unbounded`: an improving column that no row bounds makes the problem unbounded.
-/

open Finset

namespace ExactLP.Simplex

open Grid (PivotOf SameSystem)

namespace State

/-! ## Definitions -/

section Defs

/-- The state once degeneracy has been looked for. -/
def latched (s : State) : State :=
  { s with degenerate := s.degenerate || s.hasZeroRhs }

/-- `t` follows `s` by a pivot in which column `j` enters and row `i` leaves.  Under degeneracy both are the
first candidates. -/
structure Advances (s t : State) (m n j i : Nat) : Prop where
  improving : j ∈ s.improving
  binds : s.Binds j i
  pivotOf : s.tableau.PivotOf t.tableau (m + 1) (n + 1) i j
  basis_eq : t.basis = s.basis.set i (some (j : Int))
  pivots_eq : t.pivots = s.pivots ++ [((i : Int), (j : Int))]
  columns_eq : t.columns = s.columns
  goal_eq : t.goal = s.goal
  phase_eq : t.phase = s.phase
  degenerate_eq : t.degenerate = s.latched.degenerate
  first : s.latched.degenerate = true →
    (∀ k ∈ s.improving, j ≤ k) ∧ (∀ k, s.Binds j k → i ≤ k) ∧ t.offered = s.offered

/-- `t` has the columns, the goal, the phase and the system of `s`. -/
structure SameProblem (s t : State) (m n : Nat) : Prop where
  columns_eq : t.columns = s.columns
  goal_eq : t.goal = s.goal
  phase_eq : t.phase = s.phase
  system : s.tableau.SameSystem t.tableau m n

/-- A point that the current columns and rows allow: nonnegative, zero on pseudo, artificial and eliminated
columns, and a solution of the constraint rows. -/
structure Admits (s : State) (x : ColumnPoint) : Prop where
  nonneg : ∀ j < s.columns.length, 0 ≤ x j
  zero : ∀ (j : Nat) (c : Column), s.columns[j]? = some c →
    c.role.isForbidden = true ∨ c.eliminated = true → x j = 0
  solves : s.tableau.Solves (s.tableau.rowCount - 1) s.columns.length x

/-- Every artificial column is eliminated. -/
def ArtificialFree (s : State) : Prop :=
  ∀ (j : Nat) (c : Column), s.columns[j]? = some c → c.role.isArtificial = true → c.eliminated = true

end Defs

variable {s t u : State} {m n i j k : Nat} {w : Nat → Rat} {x : ColumnPoint}

/-! ## Congruence -/

section Congruence

/-- The invariant reads the tableau, the columns and the basis only. -/
theorem Canonical.congr (hc : s.Canonical m n) (ht : t.tableau = s.tableau) (hcol : t.columns = s.columns)
    (hb : t.basis = s.basis) : t.Canonical m n := by
  have hbasic : ∀ i j, t.BasicIn i j ↔ s.BasicIn i j := fun i j => by rw [BasicIn, BasicIn, hb]
  constructor
  · rw [ht]; exact hc.shaped
  · rw [hcol]; exact hc.columns_length
  · rw [hb]; exact hc.basis_length
  · rw [hb]; exact hc.basis_zero
  · rw [ht]; exact hc.rhs_nonneg
  · intro i h1 h2
    simp only [hb, hbasic]
    exact hc.slot i h1 h2
  · rw [hb, ht]; exact hc.empty
  · intro i j h
    exact (Usable.congr hcol).mpr (hc.usable i j ((hbasic i j).mp h))
  · intro i j h
    rw [ht]; exact hc.unit i j ((hbasic i j).mp h)
  · intro i j h
    rw [ht]; exact hc.zero_elsewhere i j ((hbasic i j).mp h)

theorem Priced.congr (hp : s.Priced) (ht : t.tableau = s.tableau) (hb : t.basis = s.basis) : t.Priced := by
  intro i j h
  rw [ht]
  exact hp i j (by rwa [BasicIn, ← hb])

theorem SameProblem.refl (s : State) (m n : Nat) : s.SameProblem s m n :=
  ⟨rfl, rfl, rfl, SameSystem.refl _ _ _⟩

theorem SameProblem.trans (h : s.SameProblem t m n) (h' : t.SameProblem u m n) : s.SameProblem u m n :=
  ⟨h'.columns_eq.trans h.columns_eq, h'.goal_eq.trans h.goal_eq, h'.phase_eq.trans h.phase_eq,
    h.system.trans h'.system⟩

theorem Canonical.admits_iff (hc : s.Canonical m n) :
    s.Admits x ↔ (∀ j < n, 0 ≤ x j) ∧ (∀ (j : Nat) (c : Column), s.columns[j]? = some c →
      c.role.isForbidden = true ∨ c.eliminated = true → x j = 0) ∧ s.tableau.Solves m n x := by
  have hrows : s.tableau.rowCount - 1 = m := by rw [hc.shaped.rowCount_eq, Nat.add_sub_cancel]
  constructor
  · rintro ⟨h1, h2, h3⟩
    rw [hrows, hc.columns_length] at h3
    exact ⟨hc.columns_length ▸ h1, h2, h3⟩
  · rintro ⟨h1, h2, h3⟩
    rw [← hc.columns_length] at h1
    exact ⟨h1, h2, by rw [hrows, hc.columns_length]; exact h3⟩

/-- States with the same problem admit the same points. -/
theorem SameProblem.admits_iff (h : s.SameProblem t m n) (hs : s.Canonical m n) (ht : t.Canonical m n) :
    t.Admits x ↔ s.Admits x := by
  rw [hs.admits_iff, ht.admits_iff, h.columns_eq, h.system.solves_iff]

theorem Admits.zero_of_not_usable (ha : s.Admits x) (hj : j < s.columns.length) (hu : ¬s.Usable j) :
    x j = 0 := by
  refine ha.zero j _ (List.getElem?_eq_getElem hj) ?_
  by_contra hno
  simp only [not_or, Bool.not_eq_true, Role.isForbidden, Bool.or_eq_false_iff] at hno
  exact hu ⟨_, List.getElem?_eq_getElem hj, hno.2, hno.1.2⟩

end Congruence

/-! ## One step -/

section Step

variable {setting : Setting}

theorem latchDegeneracy_run (s : State) : latchDegeneracy.run s = (.ok ⟨⟩, s.latched) := by
  unfold latchDegeneracy latched
  rw [run_modify]
  cases s.hasZeroRhs with
  | true => rw [Bool.or_true]; rfl
  | false => rw [Bool.or_false]; rfl

/-- The outcomes of a step: an optimum, the limit, an unbounded column, or a pivot. -/
theorem iterate_cases (hfair : setting.tieBreak.Fair) (hc : s.Canonical m n) (mayPivot : Bool) :
    (s.improving = [] ∧ (iterate setting mayPivot).run s = (.ok .optimal, s.latched)) ∨
    (∃ j o, j ∈ s.improving ∧ mayPivot = false ∧ (iterate setting mayPivot).run s =
      (.error (.refusing .iterationLimit s!"phase {s.phase.number} after {setting.limit} pivots" none),
        { s.latched with offered := o })) ∨
    (∃ j o, j ∈ s.improving ∧ mayPivot = true ∧ s.ratios j = [] ∧
      (s.latched.degenerate = true → ∀ k ∈ s.improving, j ≤ k) ∧
      (iterate setting mayPivot).run s = (.ok .unbounded, { s.latched with offered := o })) ∨
    ∃ j i t, mayPivot = true ∧ s.Advances t m n j i ∧
      (iterate setting mayPivot).run s = (.ok .intermediate, t) := by
  unfold iterate
  rw [run_bind_of_ok (latchDegeneracy_run s)]
  rcases entering_cases hfair s.latched with ⟨hopt, hrun⟩ | ⟨j, o, hrun, hj, hfirst⟩
  · exact Or.inl ⟨hopt, by rw [run_bind_of_ok hrun]; rfl⟩
  · right
    rw [run_bind_of_ok hrun]
    have hj' : j ∈ s.improving := hj
    cases mayPivot with
    | false => exact Or.inl ⟨j, o, hj', rfl, rfl⟩
    | true =>
      right
      have hu : s.Usable j := (mem_improving.mp hj').1
      set v : State := { s.latched with offered := o } with hv
      have hvc : v.Canonical m n := hc.congr rfl rfl rfl
      show (∃ j o, j ∈ s.improving ∧ true = true ∧ s.ratios j = [] ∧ _ ∧ _) ∨ _
      rcases leaving_cases hfair v j with ⟨hnil, hrun'⟩ | ⟨i, o', hrun', hbind, hleast⟩
      · refine Or.inl ⟨j, o, hj', rfl, hnil, fun hd => (hfirst hd).2, ?_⟩
        refine (run_bind_of_ok hrun').trans ?_
        rfl
      · right
        set v' : State := { v with offered := o' } with hv'
        have hvc' : v'.Canonical m n := hvc.congr rfl rfl rfl
        have hb : v'.Binds j i := hbind
        have hi := hvc'.mem_constraintRows.mp hb.1
        obtain ⟨g, hg, hp⟩ := pivot_run hvc' hi hu hb.2.1.ne' (hb.keepsRhs hvc')
        refine ⟨j, i, v'.pivoted g i j, rfl, ⟨hj', hbind, hg, rfl, rfl, rfl, rfl, rfl, rfl, ?_⟩, ?_⟩
        · intro hd
          obtain ⟨ho, hle⟩ := hfirst hd
          obtain ⟨ho', hle'⟩ := hleast hd
          exact ⟨hle, hle', ho'.trans ho⟩
        · refine (run_bind_of_ok hrun').trans ?_
          exact (run_bind_of_ok hp).trans rfl

theorem Advances.canonical (h : s.Advances t m n j i) (hc : s.Canonical m n) : t.Canonical m n := by
  have hi := hc.mem_constraintRows.mp h.binds.1
  have hu := (mem_improving.mp h.improving).1
  exact (hc.pivoted h.pivotOf hi h.binds.2.1.ne' hu (h.binds.keepsRhs hc)).congr rfl h.columns_eq h.basis_eq

theorem Advances.priced (h : s.Advances t m n j i) (hc : s.Canonical m n) (hp : s.Priced) : t.Priced :=
  (hp.pivoted h.pivotOf hc (hc.mem_constraintRows.mp h.binds.1) h.binds.2.1.ne').congr rfl h.basis_eq

theorem Advances.sameProblem (h : s.Advances t m n j i) (hc : s.Canonical m n) : s.SameProblem t m n :=
  ⟨h.columns_eq, h.goal_eq, h.phase_eq,
    h.pivotOf.sameSystem (hc.mem_constraintRows.mp h.binds.1) h.binds.2.1.ne'⟩

end Step

/-! ## A run -/

section Run

variable {setting : Setting}

/-- What a run leaves: the invariants, the problem it was given, and a reason to stop. -/
theorem run_cases (hfair : setting.tieBreak.Fair) (limit : Nat) (hc : s.Canonical m n) (hp : s.Priced) :
    ∃ r t, (run setting limit).run s = (r, t) ∧ t.Canonical m n ∧ t.Priced ∧ s.SameProblem t m n ∧
      ((r = .ok .optimal ∧ t.improving = []) ∨
        (r = .ok .unbounded ∧ ∃ j ∈ t.improving, t.ratios j = []) ∨
        ∃ report, r = .error (.refusing .iterationLimit report none)) := by
  induction limit generalizing s with
  | zero =>
    unfold run
    rcases iterate_cases hfair hc false with ⟨hopt, hrun⟩ | ⟨j, o, -, -, hrun⟩ | ⟨-, -, -, h, -⟩ |
      ⟨-, -, -, h, -⟩
    · exact ⟨_, _, hrun, hc.congr rfl rfl rfl, hp.congr rfl rfl, ⟨rfl, rfl, rfl, SameSystem.refl _ _ _⟩,
        Or.inl ⟨rfl, hopt⟩⟩
    · exact ⟨_, _, hrun, hc.congr rfl rfl rfl, hp.congr rfl rfl, ⟨rfl, rfl, rfl, SameSystem.refl _ _ _⟩,
        Or.inr (Or.inr ⟨_, rfl⟩)⟩
    · exact absurd h (by simp)
    · exact absurd h (by simp)
  | succ limit ih =>
    unfold run
    rcases iterate_cases hfair hc true with ⟨hopt, hrun⟩ | ⟨j, o, -, h, -⟩ | ⟨j, o, hj, -, hnil, -, hrun⟩ |
      ⟨j, i, t, -, hadv, hrun⟩
    · exact ⟨_, _, run_bind_of_ok hrun, hc.congr rfl rfl rfl, hp.congr rfl rfl,
        ⟨rfl, rfl, rfl, SameSystem.refl _ _ _⟩, Or.inl ⟨rfl, hopt⟩⟩
    · exact absurd h (by simp)
    · exact ⟨_, _, run_bind_of_ok hrun, hc.congr rfl rfl rfl, hp.congr rfl rfl,
        ⟨rfl, rfl, rfl, SameSystem.refl _ _ _⟩, Or.inr (Or.inl ⟨rfl, j, hj, hnil⟩)⟩
    · obtain ⟨r, u, hrest, h1, h2, h3, h4⟩ := ih (hadv.canonical hc) (hadv.priced hc hp)
      exact ⟨r, u, (run_bind_of_ok hrun).trans hrest, h1, h2, (hadv.sameProblem hc).trans h3, h4⟩

end Run

/-! ## What the outcomes mean -/

section Outcomes

variable (hc : s.Canonical m n) (hw : s.tableau.Prices m n w)
include hc hw

/-- At an optimum no admitted point weighs more, in the sense of the goal, than the right side of the
objective row. -/
theorem Canonical.weight_le_of_optimal (hopt : s.improving = []) (hx : s.Admits x) :
    (∑ l ∈ range n, w l * x l) * s.goal.sign ≤ s.tableau.entry 0 n * s.goal.sign := by
  obtain ⟨hnn, -, hsol⟩ := hc.admits_iff.mp hx
  rw [weight_of_solves hw hsol, sub_mul]
  refine sub_le_self _ ?_
  rw [sum_mul]
  apply sum_nonneg
  intro l hl
  have hln := mem_range.mp hl
  by_cases hu : s.Usable l
  · have hcost : 0 ≤ s.signedCost l := by
      by_contra hneg
      have hmem := mem_improving.mpr ⟨hu, not_le.mp hneg⟩
      rw [hopt] at hmem
      exact absurd hmem (by simp)
    calc (0 : Rat) ≤ s.signedCost l * x l := mul_nonneg hcost (hnn l hln)
      _ = s.tableau.entry 0 l * x l * s.goal.sign := by rw [signedCost]; ring
  · rw [hx.zero_of_not_usable (by rw [hc.columns_length]; exact hln) hu, mul_zero, zero_mul]

omit hw in
/-- An improving column is not basic. -/
theorem Canonical.rowOf?_of_improving (hp : s.Priced) (hj : j ∈ s.improving) : s.rowOf? j = none := by
  rw [hc.rowOf?_eq_none_iff]
  intro i hi
  have hcost := (mem_improving.mp hj).2
  rw [signedCost, hp i j hi, zero_mul] at hcost
  exact lt_irrefl _ hcost

omit hw in
/-- The points along an improving column that no row bounds are nonnegative solutions, zero on the columns
that may not be used. -/
theorem Canonical.moved_of_unbounded (hp : s.Priced) (hj : j ∈ s.improving) (hnil : s.ratios j = [])
    {v : Rat} (hv : 0 ≤ v) : (∀ k, 0 ≤ s.moved j v k) ∧ (∀ k, ¬s.Usable k → s.moved j v k = 0) ∧
      s.tableau.Solves m n (s.moved j v) := by
  have hu := (mem_improving.mp hj).1
  have hrow := hc.rowOf?_of_improving hp hj
  refine ⟨fun k => hc.moved_nonneg hrow (fun i h1 h2 => ?_) hv k,
    fun k hk => hc.moved_of_not_usable hu hk v, hc.solves_moved hrow (hc.usable_lt hu) v⟩
  exact entry_nonpos_of_ratios_eq_nil hnil (hc.mem_constraintRows.mpr ⟨h1, h2⟩)

/-- Along an improving column that no row bounds the weight goes beyond any number. -/
theorem Canonical.exists_weight_gt (hp : s.Priced) (hj : j ∈ s.improving) (bound : Rat) :
    ∃ v, 0 ≤ v ∧ bound * s.goal.sign < (∑ l ∈ range n, w l * s.moved j v l) * s.goal.sign := by
  have hcost : s.tableau.entry 0 j * s.goal.sign < 0 := (mem_improving.mp hj).2
  have hrow := hc.rowOf?_of_improving hp hj
  have hjn := hc.usable_lt (mem_improving.mp hj).1
  set cost := s.tableau.entry 0 j * s.goal.sign with hdef
  set gap := (bound - s.tableau.entry 0 n) * s.goal.sign with hgap
  refine ⟨max 0 ((gap + 1) / -cost), le_max_left _ _, ?_⟩
  rw [hc.weight_moved hw hp hrow hjn]
  have hmul : gap + 1 ≤ max 0 ((gap + 1) / -cost) * -cost := by
    have hle := mul_le_mul_of_nonneg_right (le_max_right 0 ((gap + 1) / -cost)) (neg_pos.mpr hcost).le
    rwa [div_mul_cancel₀ _ (neg_pos.mpr hcost).ne'] at hle
  have hexpand : (s.tableau.entry 0 n - max 0 ((gap + 1) / -cost) * s.tableau.entry 0 j) * s.goal.sign =
      bound * s.goal.sign - gap + max 0 ((gap + 1) / -cost) * -cost := by
    rw [hdef, hgap]
    ring
  rw [hexpand]
  linarith

end Outcomes

end State

end ExactLP.Simplex
