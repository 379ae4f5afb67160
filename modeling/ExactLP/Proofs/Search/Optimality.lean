import ExactLP.Proofs.Search.Coverage

/-!
# Proofs.Search.Optimality — what a search finds

The verdicts of a search, for any tie-break that keeps to its candidates.

* `explore_settled`, `run_settled`: an exploration that is not cut off covers every admissible assignment or meets the
  threshold; `run_sound`: without a threshold it covers every one.
* `solve_exact`: no admissible assignment is strictly better than the solution, and none exists where no
  integer solution is found.
-/

namespace ExactLP.Search

variable {b : Search} {nodes : List Node} {incumbent : Option Solution} {root : Rat} {problem : Problem}
  {options : SearchOptions}

/-! ## Runs -/

section Runs

/-- The outcome of an exploration: unless it was cut off, the incumbent covers every admissible assignment or meets
the threshold; and a fault is never that no integer solution was found. -/
def Settled (b : Search) (root : Rat) : Except Fault Exploration → Prop
  | .ok e => e.ending ≠ .cutOff → b.Coverage [] e.incumbent ∨ b.MeetsThreshold root e.incumbent
  | .error f => f.kind ≠ .refused .noIntegerSolution

/-- The outcome of an exploration without a threshold. -/
def Sound (b : Search) : Except Fault Exploration → Prop
  | .ok e => e.ending ≠ .cutOff → b.Coverage [] e.incumbent
  | .error f => f.kind ≠ .refused .noIntegerSolution

/-- Without a threshold none is met. -/
theorem Settled.sound {r : Except Fault Exploration} (h : b.Settled root r) (hthreshold : b.problem.threshold = none) :
    b.Sound r := by
  cases r with
  | error f => exact h
  | ok e =>
    intro hend
    refine (h hend).resolve_right ?_
    rintro ⟨t, best, ht, -⟩
    rw [hthreshold] at ht
    cases ht

theorem attempt_run {α : Type} (x : Searching α) (s : SearchState) :
    (attempt x).run s = (.ok (x.run s).1, (x.run s).2) := rfl

/-- Nodes whose rows are over standardized columns stay so. -/
theorem Parts.over_branch {node : Node} {first second : Row} (hparts : b.Parts first second)
    (hnode : b.OverColumns node.rows) : ∀ child ∈ node.branch (first, second), b.OverColumns child.rows := by
  obtain ⟨hfirst, hrest⟩ := List.forall_mem_cons.mp hparts.over_columns
  have hsecond := List.forall_mem_singleton.mp hrest
  refine List.forall_mem_cons.mpr ⟨?_, List.forall_mem_singleton.mpr ?_⟩
  · exact List.forall_mem_append.mpr ⟨hnode, List.forall_mem_singleton.mpr hsecond⟩
  · exact List.forall_mem_append.mpr ⟨hnode, List.forall_mem_singleton.mpr hfirst⟩

/-- The exploration of open nodes. -/
theorem explore_settled (h : b.Prepared) (hfair : b.options.tieBreak.Fair) (hroot : b.Bounds [] root) (budget : Nat)
    (hover : ∀ node ∈ nodes, b.OverColumns node.rows)
    (hcov : b.Coverage nodes incumbent) (s : SearchState) :
    b.Settled root ((b.explore root budget nodes incumbent).run s).1 := by
  induction budget generalizing nodes incumbent s with
  | zero =>
    cases nodes with
    | nil => exact fun _ => Or.inl hcov
    | cons node rest => exact fun hend => absurd rfl hend
  | succ budget ih =>
    cases nodes with
    | nil => exact fun _ => Or.inl hcov
    | cons node rest =>
      obtain ⟨hnode, hrest⟩ := List.forall_mem_cons.mp hover
      rw [explore, run_bind_of_ok (run_modify s _)]
      set s' := { s with visited := s.visited + 1 }
      obtain ⟨r, t, hrelax, hcase⟩ := relax_run h hfair hnode s'
      rw [run_bind_of_ok (attempt_run _ s'), hrelax]
      cases hcase with
      | failed hkind hkind' =>
        dsimp only
        rw [if_neg hkind]
        exact hkind'
      | infeasible hkind hno =>
        dsimp only
        rw [if_pos hkind]
        exact ih hrest (hcov.infeasible hno) t
      | @bound found hbound =>
        dsimp only
        split
        · -- the relaxation is no better than the incumbent
          rename_i hany
          obtain ⟨best, rfl, hworse⟩ := (Option.any_eq_true _ _).mp hany
          refine ih hrest (hcov.pruned hbound ?_) t
          intro hbetter
          rw [isBetter_iff.mpr hbetter] at hworse
          cases hworse
        · rename_i hany
          have hbetter : ∀ best, incumbent = some best →
              b.problem.goal.Better found.objective best.objective := by
            intro best hbest
            have hnot := (Option.any_eq_false _ _).mp (Bool.not_eq_true _ ▸ hany) best hbest
            exact isBetter_iff.mp (by simpa using hnot)
          obtain ⟨chosen, u, hselect, hparts⟩ := selectBranch_run h found t
          rw [run_bind_of_ok hselect]
          cases chosen with
          | none =>
            dsimp only
            split
            · rename_i hreached
              exact fun _ => h.covered_or_meets hroot hreached
            · exact ih hrest (hcov.improved hbound hbetter) u
          | some branches =>
            obtain ⟨first, second⟩ := branches
            have hparts := hparts first second rfl
            refine ih (List.forall_mem_append.mpr ⟨hparts.over_branch hnode, hrest⟩) ?_ u
            exact hcov.branched hparts

/-- The whole search, from a root relaxation that has a solution. -/
theorem run_settled (h : b.Prepared) (hfair : b.options.tieBreak.Fair) {s : SearchState} {root : Solution}
    (hroot : (b.relaxed [] s.offered).1 = .ok root) : b.Settled root.objective (b.run.run s).1 := by
  have hnil : b.OverColumns [] := List.forall_mem_nil _
  obtain ⟨r, t, hrelax, hcase⟩ := relax_run h hfair hnil s
  obtain rfl : r = .ok root := (congrArg Prod.fst hrelax).symm.trans hroot
  cases hcase with | bound hbound =>
  unfold run
  rw [run_bind_of_ok hrelax]
  have hdone : b.Coverage [] (some root) := fun z hz =>
    Or.inr ⟨root, rfl, hbound z hz (List.forall_mem_nil _)⟩
  have hopen : b.Coverage [⟨0, []⟩] none := fun z _ =>
    Or.inl ⟨⟨0, []⟩, List.mem_singleton_self _, List.forall_mem_nil _⟩
  cases hneeds : b.needsIntegrality with
  | false => exact fun _ => Or.inl hdone
  | true =>
    obtain ⟨chosen, u, hselect, hparts⟩ := selectBranch_run h root t
    rw [if_pos rfl, run_bind_of_ok hselect]
    cases chosen with
    | none => exact fun _ => Or.inl hdone
    | some branches =>
      obtain ⟨first, second⟩ := branches
      have hparts := hparts first second rfl
      dsimp only
      rw [run_bind_of_ok (run_get u)]
      refine explore_settled h hfair hbound _ (hparts.over_branch hnil) ?_ u
      exact hopen.branched hparts

/-- The whole search without a threshold. -/
theorem run_sound (h : b.Prepared) (hfair : b.options.tieBreak.Fair) (hthreshold : b.problem.threshold = none)
    (s : SearchState) : b.Sound (b.run.run s).1 := by
  obtain ⟨r, t, hrelax, hcase⟩ := relax_run h hfair (List.forall_mem_nil _) s
  have hrelaxed : (b.relaxed [] s.offered).1 = r := congrArg Prod.fst hrelax
  cases r with
  | ok root => exact (run_settled h hfair hrelaxed).sound hthreshold
  | error f =>
    unfold run
    rw [run_bind_of_error hrelax]
    cases hcase with
    | infeasible hkind _ =>
      intro hno
      rw [hkind] at hno
      cases hno
    | failed _ hkind => exact hkind

/-- A search returns the incumbent of its exploration, without the conditions. -/
theorem ok_of_solve_run {s t : SearchState} {sol : Solution} (h : b.solve.run s = (.ok sol, t)) :
    ∃ e u best, b.run.run s = (.ok e, u) ∧ e.incumbent = some best ∧ sol = best.without b.form.condition := by
  obtain ⟨e, u, hrun, hrest⟩ := ok_of_run_bind h
  cases hincumbent : e.incumbent with
  | none =>
    rw [hincumbent] at hrest
    cases (Prod.mk.inj hrest).1
  | some best =>
    rw [hincumbent] at hrest
    exact ⟨e, u, best, hrun, hincumbent, (Except.ok.inj (Prod.mk.inj hrest).1).symm⟩

end Runs

/-! ## Results -/

section Results

/-- The objective value or the fault of a search on a problem, and how its exploration ended. -/
def outcome? (problem : Problem) (options : SearchOptions) : Option (Except Fault Rat × Except Fault Ending) :=
  match prepare problem options with
  | .ok b => some ((b.solve.run {}).1.map Solution.objective, (b.run.run {}).1.map Exploration.ending)
  | .error _ => none

theorem exists_of_outcome? {r : Except Fault Rat} {ending : Ending}
    (h : outcome? problem options = some (r, .ok ending)) :
    ∃ b r' t e u, prepare problem options = .ok b ∧ b.solve.run {} = (r', t) ∧ r'.map Solution.objective = r ∧
      b.run.run {} = (.ok e, u) ∧ e.ending = ending := by
  unfold outcome? at h
  split at h
  · rename_i b hb
    obtain ⟨hr, he⟩ := Prod.mk.inj (Option.some.inj h)
    cases hrun : (b.run.run {}).1 with
    | error f =>
      rw [hrun] at he
      cases he
    | ok e =>
      rw [hrun] at he
      exact ⟨b, _, _, e, _, hb, rfl, hr, Prod.ext hrun rfl, Except.ok.inj he⟩
  · cases h

/-- Maximize `5/2 x + y` for an integer `x` of either sign and a binary `y` with `2 x + y <= 3`. -/
def sampleProblem : Problem where
  goal := .maximize
  objective := [("x", 5 / 2), ("y", 1)]
  constraints := [.plain ⟨[("x", 2), ("y", 1)], .le, 3, none⟩]
  binary := ["y"]
  integer := ["x"]
  unrestricted := ["x"]

/-- Minimize an integer `x` with `2 x = 1`. -/
def samplePuzzle : Problem where
  goal := .minimize
  objective := [("x", 1)]
  constraints := [.plain ⟨[("x", 2)], .eq, 1, none⟩]
  integer := ["x"]

/-- Without a threshold, no admissible assignment is strictly better than the solution of a search that is not
cut off; and where no integer solution is found and no node is left, there is no admissible assignment. -/
theorem solve_exact (hp : problem.Keyed) (hprepare : prepare problem options = .ok b)
    (hthreshold : problem.threshold = none) (hfair : options.tieBreak.Fair) (s : SearchState) :
    (∀ sol t, b.solve.run s = (.ok sol, t) → ∃ e u, b.run.run s = (.ok e, u) ∧
      (∃ best, e.incumbent = some best ∧ sol = best.without b.form.condition) ∧
      (e.ending ≠ .cutOff → ∀ z, b.Admissible z → ¬problem.goal.Better (b.value z) sol.objective)) ∧
    ∀ f t, b.solve.run s = (.error f, t) → f.kind = .refused .noIntegerSolution →
      ∃ e u, b.run.run s = (.ok e, u) ∧ e.incumbent = none ∧
        (e.ending = .exhausted → ∀ z, ¬b.Admissible z) := by
  obtain ⟨h, rfl, rfl⟩ := prepared_of_prepare hp hprepare
  have hsound := run_sound h hfair hthreshold s
  constructor
  · intro sol t hsolve
    obtain ⟨e, u, hrun, hrest⟩ := ok_of_run_bind hsolve
    rw [hrun] at hsound
    refine ⟨e, u, hrun, ?_⟩
    cases hincumbent : e.incumbent with
    | none =>
      rw [hincumbent] at hrest
      cases (Prod.mk.inj hrest).1
    | some best =>
      rw [hincumbent] at hrest
      obtain rfl := Except.ok.inj (Prod.mk.inj hrest).1
      refine ⟨⟨best, rfl, rfl⟩, ?_⟩
      intro hend z hz
      rcases hsound hend z hz with ⟨node, hmem, -⟩ | ⟨other, hother, hbest⟩
      · exact absurd hmem List.not_mem_nil
      · obtain rfl := Option.some.inj (hincumbent.symm.trans hother)
        exact hbest
  · intro f t hsolve hkind
    rcases error_of_run_bind hsolve with hrun | ⟨e, u, hrun, hrest⟩
    · rw [hrun] at hsound
      exact absurd hkind hsound
    · rw [hrun] at hsound
      cases hincumbent : e.incumbent with
      | some best =>
        rw [hincumbent] at hrest
        cases (Prod.mk.inj hrest).1
      | none =>
        refine ⟨e, u, hrun, hincumbent, ?_⟩
        intro hend z hz
        have hnot : e.ending ≠ .cutOff := by
          rw [hend]
          decide
        rcases hsound hnot z hz with ⟨node, hmem, -⟩ | ⟨other, hother, -⟩
        · exact absurd hmem List.not_mem_nil
        · rw [hincumbent] at hother
          cases hother

theorem solve_exact_samples :
    (∃ b sol t e u, prepare sampleProblem { tieBreak := .first } = .ok b ∧ b.solve.run {} = (.ok sol, t) ∧
      sol.objective = 7 / 2 ∧ b.run.run {} = (.ok e, u) ∧ e.ending = .exhausted ∧
      ∀ z, b.Admissible z → ¬Goal.maximize.Better (b.value z) (7 / 2)) ∧
    ∃ b f t e u, prepare samplePuzzle { tieBreak := .first } = .ok b ∧ b.solve.run {} = (.error f, t) ∧
      f.kind = .refused .noIntegerSolution ∧ b.run.run {} = (.ok e, u) ∧ e.ending = .exhausted ∧
      ∀ z, ¬b.Admissible z := by
  have hsolved : outcome? sampleProblem { tieBreak := .first } = some (.ok (7 / 2), .ok .exhausted) := by
    decide +kernel
  have hpuzzle : outcome? samplePuzzle { tieBreak := .first } =
      some (.error (.refusing .noIntegerSolution "after 2 branches" none), .ok .exhausted) := by
    decide +kernel
  constructor
  · obtain ⟨b, r, t, e, u, hprepare, hsolve, hobjective, hrun, hend⟩ := exists_of_outcome? hsolved
    cases r with
    | error f => cases hobjective
    | ok sol =>
      have hkeyed : sampleProblem.Keyed := ⟨by decide, by decide⟩
      obtain ⟨e', u', hrun', -, hbest⟩ :=
        (solve_exact hkeyed hprepare rfl Simplex.TieBreak.fair_first {}).1 sol t hsolve
      obtain ⟨he, -⟩ := Prod.mk.inj (hrun.symm.trans hrun')
      obtain rfl := Except.ok.inj he
      have hvalue : sol.objective = 7 / 2 := Except.ok.inj hobjective
      rw [hend, hvalue] at hbest
      exact ⟨b, sol, t, e, u, hprepare, hsolve, hvalue, hrun, hend, hbest (by decide)⟩
  · obtain ⟨b, r, t, e, u, hprepare, hsolve, hfault, hrun, hend⟩ := exists_of_outcome? hpuzzle
    cases r with
    | ok sol => cases hfault
    | error f =>
      have hkeyed : samplePuzzle.Keyed := ⟨by decide, by decide⟩
      obtain rfl := Except.error.inj hfault
      obtain ⟨e', u', hrun', -, hnone⟩ :=
        (solve_exact hkeyed hprepare rfl Simplex.TieBreak.fair_first {}).2 _ t hsolve rfl
      obtain ⟨he, -⟩ := Prod.mk.inj (hrun.symm.trans hrun')
      obtain rfl := Except.ok.inj he
      exact ⟨b, _, t, e, u, hprepare, hsolve, rfl, hrun, hend, hnone hend⟩

end Results

end ExactLP.Search
