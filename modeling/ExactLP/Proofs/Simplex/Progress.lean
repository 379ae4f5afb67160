import ExactLP.Proofs.Simplex.Termination

/-!
# Proofs.Simplex.Progress — what pivots do to the objective value

The right side of row 0 is the objective value.  A pivot takes it on, in the sense of the active goal, by the size
of the entering column's reduced cost times the least ratio, which is never negative.  As the value depends only
on which columns are basic, all pivots between two states with the same basic columns are at ratio zero.

* `Stepped`, `Arrives`: the states that steps lead to, whatever they find, and phases that start in between.
* `Gains`, `Advances.gains`: what one pivot does.
* `iterate_keeps`, `Stepped.keeps`: a step and any number of steps do not make the value worse.
* `pivots_gain`: what every pivot does, every run, and every pivot between states with the same basic columns.
-/

namespace ExactLP.Simplex

open State

variable {setting : Setting} {rows : List Row} {condition split : List String} {internalFrom : Option Int}
  {e : Equations} {s p t u v w : State} {m n i j k : Nat} {mayPivot : Bool} {r : Except Fault Progress}

/-! ## Definitions -/

section Defs

/-- The states that steps from `s` lead to, with or without leave to pivot and whatever they find. -/
inductive Stepped (setting : Setting) (s : State) : State → Prop
  | refl : Stepped setting s s
  | step {t u : State} {mayPivot : Bool} {r : Except Fault Progress} : Stepped setting s t →
      (iterate setting mayPivot).run t = (r, u) → Stepped setting s u

/-- The states that steps and the starts of phases lead to, in any order. -/
inductive Arrives (setting : Setting) (s : State) : State → Prop
  | start : Arrives setting s s
  | phase {t p : State} : Arrives setting s t → BeginsPhase setting t p → Arrives setting s p
  | step {t u : State} {mayPivot : Bool} {r : Except Fault Progress} : Arrives setting s t →
      (iterate setting mayPivot).run t = (r, u) → Arrives setting s u

/-- From `t` to `u` column `j` enters in row `i`, and the value in row 0 is taken on by the size of the reduced
cost times the least ratio. -/
structure Gains (t u : State) (i j : Nat) : Prop where
  noted : u.pivots = t.pivots ++ [((i : Int), (j : Int))]
  improving : j ∈ t.improving
  binds : t.Binds j i
  value_eq : u.tableau.lastEntry 0 * t.goal.sign = t.tableau.lastEntry 0 * t.goal.sign +
    |t.tableau.entry 0 j| * (t.tableau.lastEntry i / t.tableau.entry i j)
  not_worse : ¬t.goal.Better (t.tableau.lastEntry 0) (u.tableau.lastEntry 0)
  better : 0 < t.tableau.lastEntry i → t.goal.Better (u.tableau.lastEntry 0) (t.tableau.lastEntry 0)

/-- The same columns are basic, in whatever rows. -/
def SameBasicColumns (s t : State) : Prop := ∀ j : Int, some j ∈ s.basis ↔ some j ∈ t.basis

end Defs

/-! ## One pivot -/

section Pivot

theorem abs_cost_of_improving (h : j ∈ t.improving) : |t.tableau.entry 0 j| = -t.signedCost j := by
  have hneg := (mem_improving.mp h).2
  have hsign : |(t.goal.sign : Rat)| = 1 := by cases t.goal <;> simp [Goal.sign]
  rw [← abs_of_neg hneg, signedCost, abs_mul, hsign, mul_one]

theorem State.Advances.gains (h : t.Advances u m n j i) (hc : t.Canonical m n) : Gains t u i j := by
  have hcu := h.canonical hc
  have hi := hc.mem_constraintRows.mp h.binds.1
  have hvalue : u.tableau.lastEntry 0 * t.goal.sign = t.tableau.lastEntry 0 * t.goal.sign +
      |t.tableau.entry 0 j| * (t.tableau.lastEntry i / t.tableau.entry i j) := by
    rw [hc.lastEntry_eq, hc.lastEntry_eq, hcu.lastEntry_eq, h.objective_eq, abs_cost_of_improving h.improving]
    ring
  have hcost : 0 < |t.tableau.entry 0 j| := by
    rw [abs_cost_of_improving h.improving]
    exact neg_pos.mpr (mem_improving.mp h.improving).2
  refine ⟨h.pivots_eq, h.improving, h.binds, hvalue, ?_, ?_⟩
  · rw [Goal.better_iff, not_lt, hvalue]
    have hrhs : 0 ≤ t.tableau.lastEntry i := by
      rw [hc.lastEntry_eq]
      exact hc.rhs_nonneg i hi.1 hi.2
    exact le_add_of_nonneg_right (mul_nonneg hcost.le (div_nonneg hrhs h.binds.2.1.le))
  · intro hpos
    rw [Goal.better_iff, hvalue]
    exact lt_add_of_pos_right _ (mul_pos hcost (div_pos hpos h.binds.2.1))

end Pivot

/-! ## Steps one after the other -/

section Steps

theorem Stepped.trans (h : Stepped setting s t) (h' : Stepped setting t u) : Stepped setting s u := by
  induction h' with
  | refl => exact h
  | step _ hrun ih => exact .step ih hrun

theorem Stepped.of_after? (h : after? setting k s = some t) : Stepped setting s t := by
  induction k generalizing s with
  | zero =>
    obtain rfl := Option.some.inj h
    exact .refl
  | succ k ih =>
    obtain ⟨u, hstep, hrest⟩ := after?_succ_eq_some_iff.mp h
    exact (Stepped.refl.step hstep).trans (ih hrest)

/-- A run is a number of steps. -/
theorem Stepped.of_run {limit : Nat} {r : Except Fault Progress} (h : (run setting limit).run s = (r, t)) :
    Stepped setting s t := by
  induction limit generalizing s with
  | zero => exact .step .refl h
  | succ limit ih =>
    unfold run at h
    rcases hstep : (iterate setting true).run s with ⟨f | found, u⟩
    · rw [run_bind_of_error hstep] at h
      obtain rfl := (Prod.mk.inj h).2
      exact .step .refl hstep
    · rw [run_bind_of_ok hstep] at h
      cases found with
      | intermediate => exact (Stepped.refl.step hstep).trans (ih h)
      | optimal | unbounded =>
        obtain rfl := (Prod.mk.inj h).2
        exact .step .refl hstep

theorem Arrives.trans (h : Arrives setting s t) (h' : Stepped setting t u) : Arrives setting s u := by
  induction h' with
  | refl => exact h
  | step _ hrun ih => exact .step ih hrun

variable (hfair : setting.tieBreak.Fair)
include hfair

/-- A step keeps the invariants and the problem, and does not make the value worse. -/
theorem iterate_keeps (hc : t.Canonical m n) (hp : t.Priced) (hrun : (iterate setting mayPivot).run t = (r, u)) :
    u.Canonical m n ∧ u.Priced ∧ t.SameProblem u m n ∧
      t.tableau.entry 0 n * t.goal.sign ≤ u.tableau.entry 0 n * t.goal.sign := by
  have hstay : ∀ o, ({ t.latched with offered := o } : State).Canonical m n ∧
      ({ t.latched with offered := o } : State).Priced ∧
      t.SameProblem { t.latched with offered := o } m n ∧
      t.tableau.entry 0 n * t.goal.sign ≤
        ({ t.latched with offered := o } : State).tableau.entry 0 n * t.goal.sign := fun o =>
    ⟨hc.congr rfl rfl rfl, hp.congr rfl rfl, ⟨rfl, rfl, rfl, .refl _ _ _⟩, le_rfl⟩
  rcases iterate_cases hfair hc mayPivot with ⟨-, h⟩ | ⟨_, o, -, -, h⟩ | ⟨_, o, -, -, -, -, h⟩ |
    ⟨j, i, v, -, hadv, h⟩
  · obtain rfl := (Prod.mk.inj (h.symm.trans hrun)).2
    exact hstay t.offered
  · obtain rfl := (Prod.mk.inj (h.symm.trans hrun)).2
    exact hstay o
  · obtain rfl := (Prod.mk.inj (h.symm.trans hrun)).2
    exact hstay o
  · obtain rfl := (Prod.mk.inj (h.symm.trans hrun)).2
    exact ⟨hadv.canonical hc, hadv.priced hc hp, hadv.sameProblem hc, hadv.objective_le hc⟩

/-- So do any number of steps. -/
theorem Stepped.keeps (h : Stepped setting s t) (hc : s.Canonical m n) (hp : s.Priced) :
    t.Canonical m n ∧ t.Priced ∧ s.SameProblem t m n ∧
      s.tableau.entry 0 n * s.goal.sign ≤ t.tableau.entry 0 n * s.goal.sign := by
  induction h with
  | refl => exact ⟨hc, hp, .refl _ _ _, le_rfl⟩
  | step _ hrun ih =>
    obtain ⟨hct, hpt, hst, hle⟩ := ih
    obtain ⟨hcu, hpu, htu, hle'⟩ := iterate_keeps hfair hct hpt hrun
    rw [hst.goal_eq] at hle'
    exact ⟨hcu, hpu, hst.trans htu, hle.trans hle'⟩

theorem Arrives.keeps (h : Arrives setting s t) (hc : s.Canonical m n) (hp : s.Priced) :
    t.Canonical m n ∧ t.Priced := by
  induction h with
  | start => exact ⟨hc, hp⟩
  | phase _ hphase ih => exact hphase.keeps hfair ih.1 fun _ => ih.2
  | step _ hrun ih =>
    obtain ⟨hcu, hpu, -⟩ := iterate_keeps hfair ih.1 ih.2 hrun
    exact ⟨hcu, hpu⟩

/-- With leave or without it, a step that finds something intermediate has made a pivot. -/
theorem advances_of_step (hc : t.Canonical m n)
    (hrun : (iterate setting mayPivot).run t = (.ok .intermediate, u)) : ∃ j i, t.Advances u m n j i := by
  cases mayPivot with
  | true => exact advances_of_intermediate hfair hc hrun
  | false =>
    rcases iterate_cases hfair hc false with ⟨-, h⟩ | ⟨_, _, -, -, h⟩ | ⟨_, _, -, hno, -⟩ |
      ⟨_, _, _, hno, -⟩
    · cases (Prod.mk.inj (h.symm.trans hrun)).1
    · cases (Prod.mk.inj (h.symm.trans hrun)).1
    · cases hno
    · cases hno

end Steps

/-! ## Between states with the same basic columns -/

section Between

theorem SameBasicColumns.rowOf?_eq_none_iff (h : SameBasicColumns s t) (hs : s.Canonical m n)
    (ht : t.Canonical m n) (j : Nat) : t.rowOf? j = none ↔ s.rowOf? j = none := by
  have hbasic : (∃ i, t.BasicIn i j) ↔ ∃ i, s.BasicIn i j := by
    rw [← ht.contains_iff, ← hs.contains_iff, List.contains_iff_mem, List.contains_iff_mem, h j]
  rw [ht.rowOf?_eq_none_iff, hs.rowOf?_eq_none_iff, ← not_exists, ← not_exists, hbasic]

/-- A pivot between two states with the same basic columns is at ratio zero. -/
theorem ratio_eq_zero (hfair : setting.tieBreak.Fair) (hc : s.Canonical m n) (hp : s.Priced)
    (hsame : SameBasicColumns s t) (hbefore : Stepped setting s v)
    (hrun : (iterate setting mayPivot).run v = (.ok .intermediate, w)) (hafter : Stepped setting w t)
    (hgains : Gains v w i j) : v.tableau.lastEntry i / v.tableau.entry i j = 0 := by
  obtain ⟨hcv, hpv, hsv, hle⟩ := hbefore.keeps hfair hc hp
  obtain ⟨hcw, hpw, hvw, hstep⟩ := iterate_keeps hfair hcv hpv hrun
  obtain ⟨hct, hpt, hwt, hle'⟩ := hafter.keeps hfair hcw hpw
  have hback : t.tableau.entry 0 n = s.tableau.entry 0 n :=
    hc.value_eq hct hp hpt (hsv.trans (hvw.trans hwt)).system (hsame.rowOf?_eq_none_iff hc hct)
  -- the value comes back, so it has stood still at this pivot too
  rw [hvw.goal_eq, hsv.goal_eq, hback] at hle'
  rw [hsv.goal_eq] at hstep
  have hstill : w.tableau.lastEntry 0 * v.goal.sign = v.tableau.lastEntry 0 * v.goal.sign := by
    rw [hcw.lastEntry_eq, hcv.lastEntry_eq, hsv.goal_eq]
    exact le_antisymm (hle'.trans hle) hstep
  have hzero := hgains.value_eq
  rw [hstill, left_eq_add] at hzero
  refine (mul_eq_zero.mp hzero).resolve_left ?_
  rw [abs_cost_of_improving hgains.improving]
  exact (neg_pos.mpr (mem_improving.mp hgains.improving).2).ne'

end Between

/-! ## Phases on equations -/

section Phases

/-- On some equations, in either phase and under any tie-break that keeps to its candidates, every pivot gains, no run
makes the value worse, and all pivots between two states of one phase with the same basic columns are at ratio zero. -/
theorem pivots_gain (hfair : setting.tieBreak.Fair)
    (hrows : Equations.ofRows setting.objective.names rows condition split internalFrom = .ok e)
    (hstart : State.ofEquations setting e = .ok s) :
    (∀ t u mayPivot, Arrives setting s t → (iterate setting mayPivot).run t = (.ok .intermediate, u) →
      ∃ i j, Gains t u i j) ∧
    (∀ t u limit r, Arrives setting s t → (run setting limit).run t = (r, u) →
      ¬t.goal.Better (t.tableau.lastEntry 0) (u.tableau.lastEntry 0)) ∧
    ∀ t u v w mayPivot, Arrives setting s t → Stepped setting t v →
      (iterate setting mayPivot).run v = (.ok .intermediate, w) → Stepped setting w u → SameBasicColumns t u →
      ∃ i j, Gains v w i j ∧ v.tableau.lastEntry i / v.tableau.entry i j = 0 := by
  obtain ⟨unknowns, aux, h⟩ := Equations.exists_laidOut hrows
  obtain rfl := ofEquations_eq hstart
  have hs := initial_startable h
  have hp := initial_priced h fun _ hname => h.mem_unknowns_of_objective hname
  have hgain : ∀ t u mayPivot, Arrives setting (initial setting e) t →
      (iterate setting mayPivot).run t = (.ok .intermediate, u) → ∃ i j, Gains t u i j := by
    intro t u mayPivot hst hrun
    obtain ⟨hct, -⟩ := hst.keeps hfair hs.canonical hp
    obtain ⟨j, i, hadv⟩ := advances_of_step hfair hct hrun
    exact ⟨i, j, hadv.gains hct⟩
  refine ⟨hgain, ?_, ?_⟩
  · intro t u limit r hst hrun
    obtain ⟨hct, hpt⟩ := hst.keeps hfair hs.canonical hp
    obtain ⟨hcu, -, -, hle⟩ := (Stepped.of_run hrun).keeps hfair hct hpt
    rwa [Goal.better_iff, not_lt, hct.lastEntry_eq, hcu.lastEntry_eq]
  · intro t u v w mayPivot hst hbefore hrun hafter hsame
    obtain ⟨hct, hpt⟩ := hst.keeps hfair hs.canonical hp
    obtain ⟨i, j, hgains⟩ := hgain v w mayPivot (hst.trans hbefore) hrun
    exact ⟨i, j, hgains, ratio_eq_zero hfair hct hpt hsame hbefore hrun hafter hgains⟩

/-- With `x ≤ y` and `y ≤ 5` the second pivot takes `x` from 0 to 5; and in `exists_cycle` the first of the six
pivots that lead back to a basis is at ratio zero. -/
theorem pivots_gain_samples :
    (∃ e s t u i j, Equations.ofRows ["x"]
        [⟨[("x", 1), ("y", -1)], .le, 0, none⟩, ⟨[("y", 1)], .le, 5, none⟩] [] [] none = .ok e ∧
      State.ofEquations endingSetting e = .ok s ∧ Arrives endingSetting s t ∧
      (iterate endingSetting true).run t = (.ok .intermediate, u) ∧ t.tableau.lastEntry 0 = 0 ∧
      u.tableau.lastEntry 0 = 5 ∧ Gains t u i j) ∧
    ∃ e s t u v i j, Equations.ofRows ["x", "y", "z", "w"]
        [⟨[("x", -4), ("y", 4), ("z", -1), ("w", -2)], .le, 0, none⟩,
          ⟨[("x", -4), ("y", -2), ("z", 3), ("w", -2)], .le, 0, none⟩,
          ⟨[("x", 2), ("y", 3), ("z", -4), ("w", 2)], .le, 0, none⟩] [] [] none = .ok e ∧
      State.ofEquations cyclingSetting e = .ok s ∧ Arrives cyclingSetting s t ∧
      (iterate cyclingSetting true).run t = (.ok .intermediate, v) ∧ Stepped cyclingSetting v u ∧
      SameBasicColumns t u ∧
      Gains t v i j ∧ t.tableau.lastEntry i / t.tableau.entry i j = 0 := by
  have hvalues : (pivoted? endingSetting
      [⟨[("x", 1), ("y", -1)], .le, 0, none⟩, ⟨[("y", 1)], .le, 5, none⟩] 1).map (fun t =>
        (t.tableau.lastEntry 0, (after? endingSetting 1 t).map fun u => u.tableau.lastEntry 0)) =
      some (0, some 5) := by
    decide +kernel
  have hround : (pivoted? cyclingSetting
      [⟨[("x", -4), ("y", 4), ("z", -1), ("w", -2)], .le, 0, none⟩,
        ⟨[("x", -4), ("y", -2), ("z", 3), ("w", -2)], .le, 0, none⟩,
        ⟨[("x", 2), ("y", 3), ("z", -4), ("w", 2)], .le, 0, none⟩] 1).map (fun t =>
          (after? cyclingSetting 6 t).map State.basis == some t.basis) = some true := by
    decide +kernel
  constructor
  · obtain ⟨t, ht, hboth⟩ := Option.map_eq_some_iff.mp hvalues
    obtain ⟨hzero, hafter⟩ := Prod.mk.inj hboth
    obtain ⟨u, hu, hfive⟩ := Option.map_eq_some_iff.mp hafter
    obtain ⟨u', hrun, hlast⟩ := after?_succ_eq_some_iff.mp hu
    obtain rfl := Option.some.inj hlast
    obtain ⟨e, s, he, hs, hphase, hafter⟩ := exists_phase_of_pivoted? ht
    have hst : Arrives endingSetting s t := (Arrives.start.phase hphase).trans (.of_after? hafter)
    obtain ⟨i, j, hgains⟩ := (pivots_gain TieBreak.fair_first he hs).1 t u' true hst hrun
    exact ⟨e, s, t, u', i, j, he, hs, hst, hrun, hzero, hfive, hgains⟩
  · obtain ⟨t, ht, hbasis⟩ := Option.map_eq_some_iff.mp hround
    obtain ⟨u, hu, hsame⟩ := Option.map_eq_some_iff.mp (beq_iff_eq.mp hbasis)
    obtain ⟨v, hrun, hlast⟩ := after?_succ_eq_some_iff.mp hu
    obtain ⟨e, s, he, hs, hphase, hafter⟩ := exists_phase_of_pivoted? ht
    have hst : Arrives cyclingSetting s t := (Arrives.start.phase hphase).trans (.of_after? hafter)
    have hcolumns : SameBasicColumns t u := fun j => by rw [hsame]
    obtain ⟨i, j, hgains, hratio⟩ := (pivots_gain TieBreak.fair_first he hs).2.2 t u t v true hst .refl
      hrun (.of_after? hlast) hcolumns
    exact ⟨e, s, t, u, v, i, j, he, hs, hst, hrun, .of_after? hlast, hcolumns, hgains, hratio⟩

end Phases

end ExactLP.Simplex
