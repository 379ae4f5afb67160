import ExactLP.Proofs.Simplex.Start

/-!
# Proofs.Simplex.Optimality — the verdicts of the simplex method

The verdicts on the equations that `Equations.ofRows` lays out, for any setting with a tie-break that keeps to
its candidates.

* `Verdict`, `exists_verdict`: the outcomes of a run, in terms of the feasible points.
* `solve_optimal`: a solution is feasible, has the value it reports, and none is better.
* `solve_refused`: an infeasible problem has no feasible point, an unbounded one has feasible points beyond
  every number.
-/

namespace ExactLP

/-- The number `a` is strictly better than `b`. -/
def Goal.Better : Goal → Rat → Rat → Prop
  | maximize, a, b => b < a
  | minimize, a, b => a < b

theorem Goal.better_iff (goal : Goal) (a b : Rat) :
    goal.Better a b ↔ b * goal.sign < a * goal.sign := by
  cases goal with
  | maximize => simp [Better, sign]
  | minimize => simp [Better, sign]

namespace Simplex

variable {setting : Setting} {rows : List Row} {condition split : List String} {internalFrom : Option Int}
  {e : Equations} {s t : State} {sol : Solution} {f : Fault} {x : ColumnPoint}

/-- The outcomes of a run on the equations `e` that ends in `t`: an optimum, feasible points beyond every
number, no feasible point, or the limit. -/
inductive Verdict (e : Equations) (t : State) (setting : Setting) : Except Fault Solution → Prop
  | optimal {sol : Solution} : e.Feasible t.basicPoint →
      sol.objective = setting.offset + e.value setting.objective t.basicPoint →
      (∀ y, e.Feasible y → ¬setting.goal.Better (e.value setting.objective y)
        (e.value setting.objective t.basicPoint)) → Verdict e t setting (.ok sol)
  | unbounded : (∀ bound, ∃ y, e.Feasible y ∧ setting.goal.Better (e.value setting.objective y) bound) →
      Verdict e t setting (.error .unbounded)
  | infeasible {report : String} : (∀ y, ¬e.Feasible y) →
      Verdict e t setting (.error (.refusing .infeasible report none))
  | limit {report : String} : Verdict e t setting (.error (.refusing .iterationLimit report none))

/-- Whatever candidates were offered before, a run comes to a verdict. -/
theorem exists_verdict (hfair : setting.tieBreak.Fair)
    (hrows : Equations.ofRows setting.objective.names rows condition split internalFrom = .ok e)
    (hstart : State.ofEquations setting e = .ok s) (offered : List (List Nat)) :
    ∃ r t, (solve setting).run { s with offered } = (r, t) ∧ Verdict e t setting r := by
  obtain ⟨unknowns, aux, h⟩ := Equations.exists_laidOut hrows
  obtain rfl := State.ofEquations_eq hstart
  have hs := State.initial_startable h
  have hs' := hs.of_offered offered
  have hadm : ∀ y, ({ State.initial setting e with offered } : State).Admits y ↔ e.Feasible y :=
    fun _ => State.admits_iff_feasible_of_offered h offered
  have hvalue : ∀ y, (State.initial setting e).value setting.objective y = e.value setting.objective y :=
    State.value_initial setting.objective
  have hval : ∀ y, ({ State.initial setting e with offered } : State).value setting.objective y =
      e.value setting.objective y := hvalue
  obtain ⟨r, t, hrun, hout⟩ := hs'.solve_cases hfair
  refine ⟨r, t, hrun, ?_⟩
  cases hout with
  | optimal hobj _ hready hopt =>
    obtain ⟨hfeas, hentry, hbest⟩ := hready.optimal hopt
    rw [hadm] at hfeas
    refine .optimal hfeas ?_ ?_
    · rw [hobj, ← hentry, hval, add_comm]
    · intro y hy
      have hle := hbest y ((hadm y).mpr hy)
      rw [hval, hval] at hle
      rw [Goal.better_iff]
      exact not_lt.mpr hle
  | unbounded hready hcolumn =>
    obtain ⟨j, hj, hnil⟩ := hcolumn
    apply Verdict.unbounded
    intro bound
    obtain ⟨y, hy, hlt⟩ := hready.exists_gt hj hnil bound
    rw [hval] at hlt
    exact ⟨y, (hadm y).mp hy, (Goal.better_iff _ _ _).mpr hlt⟩
  | infeasible hno => exact .infeasible fun y hy => hno y ((hadm y).mpr hy)
  | limit => exact .limit

/-- What becomes of some rows: their equations, the first state and the run on it. -/
def verdict? (setting : Setting) (rows : List Row) : Option (Except Fault Solution) :=
  match Equations.ofRows setting.objective.names rows [] [] none with
  | .ok e =>
    match State.ofEquations setting e with
    | .ok s => some ((solve setting).run s).1
    | .error _ => none
  | .error _ => none

theorem exists_run_of_verdict? {r : Except Fault Solution} (h : verdict? setting rows = some r) :
    ∃ e s t, Equations.ofRows setting.objective.names rows [] [] none = .ok e ∧
      State.ofEquations setting e = .ok s ∧ (solve setting).run s = (r, t) := by
  unfold verdict? at h
  split at h
  · rename_i e he
    split at h
    · rename_i s hs
      exact ⟨e, s, _, he, hs, Prod.ext_iff.mpr ⟨Option.some.inj h, rfl⟩⟩
    · exact absurd h (by simp)
  · exact absurd h (by simp)

/-- Maximize `x + y`. -/
def sampleSetting : Setting := { goal := .maximize, objective := [("x", 1), ("y", 1)], tieBreak := .first }

/-- A solution comes from a feasible basic solution with the value that it reports, and no feasible point is
strictly better. -/
theorem solve_optimal (hfair : setting.tieBreak.Fair)
    (hrows : Equations.ofRows setting.objective.names rows condition split internalFrom = .ok e)
    (hstart : State.ofEquations setting e = .ok s) (hrun : (solve setting).run s = (.ok sol, t)) :
    e.Feasible t.basicPoint ∧ sol.objective = setting.offset + e.value setting.objective t.basicPoint ∧
      ∀ y, e.Feasible y → ¬setting.goal.Better (e.value setting.objective y)
        (e.value setting.objective t.basicPoint) := by
  obtain ⟨r, u, hrun', hverdict⟩ := exists_verdict hfair hrows hstart s.offered
  obtain ⟨rfl, rfl⟩ := Prod.mk.inj (hrun'.symm.trans hrun)
  cases hverdict with
  | optimal hfeas hobj hbest => exact ⟨hfeas, hobj, hbest⟩

theorem solve_optimal_sample :
    ∃ e s sol t, Equations.ofRows ["x", "y"]
        [⟨[("x", 1), ("y", 2)], .le, 4, none⟩, ⟨[("x", 1)], .ge, 1, none⟩] [] [] none = .ok e ∧
      State.ofEquations sampleSetting e = .ok s ∧ (solve sampleSetting).run s = (.ok sol, t) ∧
      sol.objective = 4 ∧ e.Feasible t.basicPoint ∧ e.value sampleSetting.objective t.basicPoint = 4 ∧
      ∀ y, e.Feasible y → ¬Goal.maximize.Better (e.value sampleSetting.objective y) 4 := by
  have hverdict : verdict? sampleSetting
      [⟨[("x", 1), ("y", 2)], .le, 4, none⟩, ⟨[("x", 1)], .ge, 1, none⟩] = some (.ok {
        objective := 4
        values := [(some "x", 4), (some "y", 0)]
        slacks := [(some "1", 0), (some "2", 3)]
        reducedCost := [(some "x", 0), (some "y", 1)]
        dual := [(some "1", 1), (some "2", 0)] }) := by
    decide +kernel
  obtain ⟨e, s, t, he, hs, hrun⟩ := exists_run_of_verdict? hverdict
  obtain ⟨hfeas, hobj, hbest⟩ := solve_optimal TieBreak.fair_first he hs hrun
  have hval : e.value sampleSetting.objective t.basicPoint = 4 := by
    have hoffset : sampleSetting.offset = 0 := rfl
    rw [hoffset, zero_add] at hobj
    exact hobj.symm
  exact ⟨e, s, _, t, he, hs, hrun, rfl, hfeas, hval, hval ▸ hbest⟩

/-- A problem refused as infeasible has no feasible point; one refused as unbounded has feasible points, and
some are better than any number. -/
theorem solve_refused (hfair : setting.tieBreak.Fair)
    (hrows : Equations.ofRows setting.objective.names rows condition split internalFrom = .ok e)
    (hstart : State.ofEquations setting e = .ok s) (hrun : (solve setting).run s = (.error f, t)) :
    (f.kind = .refused .infeasible → ∀ y, ¬e.Feasible y) ∧
      (f.kind = .unbounded → (∃ y, e.Feasible y) ∧
        ∀ bound, ∃ y, e.Feasible y ∧ setting.goal.Better (e.value setting.objective y) bound) := by
  obtain ⟨r, u, hrun', hverdict⟩ := exists_verdict hfair hrows hstart s.offered
  obtain ⟨rfl, rfl⟩ := Prod.mk.inj (hrun'.symm.trans hrun)
  cases hverdict with
  | unbounded hunb =>
    obtain ⟨y, hy, -⟩ := hunb 0
    exact ⟨fun hkind => absurd hkind (by decide), fun _ => ⟨⟨y, hy⟩, hunb⟩⟩
  | infeasible hno => exact ⟨fun _ => hno, fun hkind => absurd hkind FaultKind.noConfusion⟩
  | limit =>
    constructor
    · intro hkind
      cases hkind
    · intro hkind
      cases hkind

theorem solve_refused_samples :
    (∃ e s f t, Equations.ofRows ["x", "y"]
        [⟨[("x", 1), ("y", 2)], .le, 4, none⟩, ⟨[("x", 1)], .ge, 5, none⟩] [] [] none = .ok e ∧
      State.ofEquations sampleSetting e = .ok s ∧ (solve sampleSetting).run s = (.error f, t) ∧
      f.kind = .refused .infeasible ∧ ∀ y, ¬e.Feasible y) ∧
    ∃ e s f t, Equations.ofRows ["x", "y"] [⟨[("x", 1), ("y", -1)], .le, 4, none⟩] [] [] none = .ok e ∧
      State.ofEquations sampleSetting e = .ok s ∧ (solve sampleSetting).run s = (.error f, t) ∧
      f.kind = .unbounded ∧ (∃ y, e.Feasible y) ∧
      ∀ bound, ∃ y, e.Feasible y ∧ Goal.maximize.Better (e.value sampleSetting.objective y) bound := by
  have hno : verdict? sampleSetting
      [⟨[("x", 1), ("y", 2)], .le, 4, none⟩, ⟨[("x", 1)], .ge, 5, none⟩] =
        some (.error (.refusing .infeasible "phase 1 ended with infeasibility 1" none)) := by
    decide +kernel
  have hunb : verdict? sampleSetting [⟨[("x", 1), ("y", -1)], .le, 4, none⟩] = some (.error .unbounded) := by
    decide +kernel
  constructor
  · obtain ⟨e, s, t, he, hs, hrun⟩ := exists_run_of_verdict? hno
    exact ⟨e, s, _, t, he, hs, hrun, rfl, (solve_refused TieBreak.fair_first he hs hrun).1 rfl⟩
  · obtain ⟨e, s, t, he, hs, hrun⟩ := exists_run_of_verdict? hunb
    exact ⟨e, s, _, t, he, hs, hrun, rfl, (solve_refused TieBreak.fair_first he hs hrun).2 rfl⟩

end Simplex

end ExactLP
