import ExactLP.Proofs.Number.Signs
import ExactLP.Proofs.Search.Optimality

/-!
# Proofs.Search.Threshold — what a search with a threshold may stop at

A search with a threshold may stop at an incumbent that reaches the threshold's fraction of the root bound.  The
number of a threshold is never negative, so an incumbent that meets it is within that fraction of every admissible
assignment, for both goals and whatever the sign of the root bound.

* `Threshold.value_nonneg`: the number of a threshold, floats included.
* `MeetsThreshold.le`: what an incumbent that meets a threshold says of the admissible assignments.
* `solve_threshold`: the solution is optimal or meets the threshold.
-/

namespace ExactLP

variable {x : Operand} {t : Threshold} {y : Float}

/-! ## The number of a threshold -/

section Numbers

/-- No multiple of a positive float has a sign bit, so the integer nearest to it is not negative. -/
theorem nearestMultiple_nonneg {d : Nat} {n : Int} (hy : 0 < y) (h : nearestMultiple y d = .ok n) : 0 ≤ n := by
  unfold nearestMultiple at h
  dsimp only at h
  split at h
  · cases h
  · obtain rfl := Except.ok.inj h
    unfold Decimal.nearestInt
    rw [Decimal.isNegative_mul (Decimal.unsigned_of_pos hy) (Decimal.unsigned_ofNat d)]
    exact Int.natCast_nonneg _

/-- A positive float stands for no negative fraction. -/
theorem resolve_num_nonneg {num : Int} {den : Nat} {residual : Float} (hy : 0 < y)
    (h : resolve y = .ok (num, den, residual)) : 0 ≤ num := by
  unfold resolve at h
  split_ifs at h
  · obtain ⟨rfl, -⟩ := Prod.mk.inj (Except.ok.inj h)
    exact le_refl 0
  · obtain ⟨rfl, -⟩ := Prod.mk.inj (Except.ok.inj h)
    exact zero_le_one
  · obtain ⟨d, -, h⟩ := ok_of_bind h
    obtain ⟨n, hn, h⟩ := ok_of_bind h
    split at h
    · obtain ⟨rfl, -⟩ := Prod.mk.inj (Except.ok.inj h)
      exact nearestMultiple_nonneg hy hn
    · cases h

theorem Threshold.read_spec (h : Threshold.read x = .ok t) :
    inUnitInterval x = .ok true ∧ (x.value : Except NumberFault Rat) = .ok t.value := by
  obtain ⟨inside, hinside, h⟩ := ok_of_bind h
  cases inside with
  | false => cases h
  | true =>
    rw [if_pos rfl] at h
    cases hvalue : x.value with
    | error fault =>
      rw [hvalue] at h
      cases h
    | ok q =>
      rw [hvalue] at h
      obtain rfl := Except.ok.inj h
      exact ⟨hinside, rfl⟩

/-- The number of a threshold is not negative.  A float in the interval may be too small to be told from zero. -/
theorem Threshold.value_nonneg (h : Threshold.read x = .ok t) : 0 ≤ t.value := by
  obtain ⟨hinside, hvalue⟩ := read_spec h
  have hpos : ∀ q : Rat, x.value = .ok q → (do
      let q : Rat ← x.value
      return decide (0 < q) && decide (q ≤ 1) : Except Fault Bool) = .ok true → 0 ≤ q := by
    intro q hq hin
    rw [hq] at hin
    have hin := Except.ok.inj hin
    rw [Bool.and_eq_true, decide_eq_true_iff] at hin
    exact hin.1.le
  cases x with
  | float y =>
    have hin := Except.ok.inj hinside
    rw [Bool.and_eq_true, decide_eq_true_iff] at hin
    obtain ⟨⟨num, den, residual⟩, hresolve, hnumber⟩ := ok_of_bind hvalue
    obtain hnumber := Except.ok.inj hnumber
    rw [← hnumber]
    exact Rat.mkRat_nonneg (resolve_num_nonneg hin.1 hresolve) den
  | int n => exact hpos _ hvalue hinside
  | bool b => exact hpos _ hvalue hinside
  | fraction num den => exact hpos _ hvalue hinside
  | ratio r => exact hpos _ hvalue hinside
  | other kind => cases hinside

end Numbers

namespace Search

variable {b : Search} {problem : Problem} {options : SearchOptions} {incumbent : Option Solution} {root : Rat}
  {best : Solution} {z : Assignment}

/-! ## Incumbents that meet a threshold -/

section Meets

/-- A fraction of a bound is no less than the same fraction of what it bounds, for either goal. -/
theorem Bounds.mul_le (h : b.Bounds [] root) (hz : b.Admissible z) {q : Rat} (hq : 0 ≤ q) :
    q * (b.value z * b.problem.goal.sign) ≤ q * (root * b.problem.goal.sign) :=
  mul_le_mul_of_nonneg_left (Goal.not_better_iff.mp (h z hz (List.forall_mem_nil _))) hq

/-- An incumbent that meets the threshold is within its fraction of every admissible assignment. -/
theorem MeetsThreshold.le (h : b.MeetsThreshold root (some best)) (hthreshold : b.problem.threshold = some t)
    (ht : 0 ≤ t.value) (hroot : b.Bounds [] root) :
    t.value * (root * b.problem.goal.sign) ≤ best.objective * b.problem.goal.sign ∧
      ∀ z, b.Admissible z →
        t.value * (b.value z * b.problem.goal.sign) ≤ best.objective * b.problem.goal.sign := by
  obtain ⟨t', best', ht', hbest, hle⟩ := h
  obtain rfl := Option.some.inj (hthreshold.symm.trans ht')
  obtain rfl := Option.some.inj hbest
  exact ⟨hle, fun z hz => (hroot.mul_le hz ht).trans hle⟩

/-- A search that goes through has solved its root relaxation, which bounds every admissible assignment. -/
theorem exists_root {s : SearchState} {e : Exploration} {u : SearchState} (h : b.Prepared)
    (hfair : b.options.tieBreak.Fair) (hrun : b.run.run s = (.ok e, u)) :
    ∃ root, (b.relaxed [] s.offered).1 = .ok root ∧ b.Bounds [] root.objective := by
  obtain ⟨root, v, hrelax, -⟩ := ok_of_run_bind hrun
  have hrelaxed : (b.relaxed [] s.offered).1 = .ok root := congrArg Prod.fst hrelax
  have hcase := relaxes_relaxed h hfair (List.forall_mem_nil _) s.offered
  rw [hrelaxed] at hcase
  cases hcase with | bound hbound => exact ⟨root, hrelaxed, hbound⟩

end Meets

/-! ## Results -/

section Results

/-- Maximize `5 x + 4 y` over integers with `6 x + 4 y <= 24` and `x + 2 y <= 6`, up to a fraction of the root bound that
is given as a float, `0.8`. -/
def sampleKnapsack : Problem where
  goal := .maximize
  objective := [("x", 5), ("y", 4)]
  constraints := [.plain ⟨[("x", 6), ("y", 4)], .le, 24, none⟩, .plain ⟨[("x", 1), ("y", 2)], .le, 6, none⟩]
  integer := ["x", "y"]
  threshold := some ⟨.float 0.8, 4 / 5⟩

/-- With a threshold and for any state before, the solution of a search that is not cut off is optimal, or it reaches
the threshold's fraction of the root bound and with it that fraction of every admissible assignment. -/
theorem solve_threshold (hp : problem.Keyed) (hprepare : prepare problem options = .ok b)
    (hthreshold : problem.threshold = some t) (hread : Threshold.read x = .ok t)
    (hfair : options.tieBreak.Fair) {s u : SearchState} {sol : Solution} (hsolve : b.solve.run s = (.ok sol, u)) :
    ∃ e w root, b.run.run s = (.ok e, w) ∧
      (∃ best, e.incumbent = some best ∧ sol = best.without b.form.condition) ∧
      (b.relaxed [] s.offered).1 = .ok root ∧
      (e.ending ≠ .cutOff → (∀ z, b.Admissible z → ¬problem.goal.Better (b.value z) sol.objective) ∨
        t.value * (root.objective * problem.goal.sign) ≤ sol.objective * problem.goal.sign ∧
          ∀ z, b.Admissible z →
            t.value * (b.value z * problem.goal.sign) ≤ sol.objective * problem.goal.sign) := by
  obtain ⟨h, rfl, rfl⟩ := prepared_of_prepare hp hprepare
  obtain ⟨e, w, best, hrun, hincumbent, rfl⟩ := ok_of_solve_run hsolve
  obtain ⟨root, hroot, hbound⟩ := exists_root h hfair hrun
  have hsettled := run_settled h hfair hroot
  rw [hrun] at hsettled
  refine ⟨e, w, root, hrun, ⟨best, hincumbent, rfl⟩, hroot, fun hend => ?_⟩
  rcases hsettled hend with hcov | hmeets
  · refine Or.inl fun z hz => ?_
    rcases hcov z hz with ⟨node, hmem, -⟩ | ⟨other, hother, hbest⟩
    · exact absurd hmem List.not_mem_nil
    · obtain rfl := Option.some.inj (hincumbent.symm.trans hother)
      exact hbest
  · rw [hincumbent] at hmeets
    exact Or.inr (hmeets.le hthreshold (Threshold.value_nonneg hread) hbound)

/-- The search stops at 18, which is not the best value, 20, but reaches four fifths of the root bound, 21. -/
theorem solve_threshold_sample :
    ∃ b sol u e w, prepare sampleKnapsack { tieBreak := .first } = .ok b ∧ b.solve.run {} = (.ok sol, u) ∧
      sol.objective = 18 ∧ b.run.run {} = (.ok e, w) ∧ e.ending = .reached ∧
      ((∀ z, b.Admissible z → ¬Goal.maximize.Better (b.value z) 18) ∨
        ∀ z, b.Admissible z → 4 / 5 * (b.value z * Goal.maximize.sign) ≤ 18 * Goal.maximize.sign) := by
  have houtcome : outcome? sampleKnapsack { tieBreak := .first } = some (.ok 18, .ok .reached) := by
    decide +kernel
  obtain ⟨b, r, u, e, w, hprepare, hsolve, hobjective, hrun, hend⟩ := exists_of_outcome? houtcome
  cases r with
  | error f => cases hobjective
  | ok sol =>
    have hkeyed : sampleKnapsack.Keyed := ⟨by decide, by decide⟩
    have hread : Threshold.read (.float 0.8) = .ok ⟨.float 0.8, 4 / 5⟩ := by
      have hinside : Threshold.inUnitInterval (.float 0.8) = .ok true := by decide +kernel
      have hvalue : (Operand.float 0.8).value = .ok (4 / 5) := by decide +kernel
      rw [Threshold.read, hinside, hvalue]
      rfl
    obtain ⟨e', w', root, hrun', -, -, hstop⟩ :=
      solve_threshold hkeyed hprepare rfl hread Simplex.TieBreak.fair_first hsolve
    obtain ⟨he, -⟩ := Prod.mk.inj (hrun.symm.trans hrun')
    obtain rfl := Except.ok.inj he
    have hvalue : sol.objective = 18 := Except.ok.inj hobjective
    rw [hend, hvalue] at hstop
    exact ⟨b, sol, u, e, w, hprepare, hsolve, hvalue, hrun, hend, (hstop (by decide)).imp_right And.right⟩

end Results

end Search

end ExactLP
