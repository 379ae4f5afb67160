import ExactLP.Proofs.Simplex.Transition
import ExactLP.Proofs.Solution

/-!
# Proofs.Simplex.Verdict — what the end of a run says of the points that its start admits

A run goes from a canonical state through both phases, or through the second one alone where no column is
artificial.  Its outcome is an optimum, an unbounded column, an infeasible first phase or the limit.

* `Outcome`, `Startable.solve_cases`: the outcomes of a run.
* `PhaseTwoReady.optimal`: at an optimum the basic solution is admitted and nothing admitted is better.
* `PhaseTwoReady.exists_gt`: an unbounded column leads beyond every number.
-/

open Finset

namespace ExactLP.Simplex.State

open Grid (SameSystem)

variable {s t u : State} {m n i j : Nat} {x : ColumnPoint} {setting : Setting}

/-! ## Values of points -/

section Value

/-- The value of a point: coefficients by the names of the columns. -/
def value (s : State) (objective : Terms) (x : ColumnPoint) : Rat :=
  ∑ l ∈ range s.columns.length, columnValue (fun c => objective.coefficient c.name) s.columns l * x l

theorem columnValue_map_bare (f : Column → Rat) (columns : List Column) (j : Nat) :
    columnValue f (columns.map Column.bare) j = columnValue (fun c => f c.bare) columns j := by
  rw [columnValue, columnValue, List.getElem?_map]
  cases columns[j]? <;> rfl

/-- States with the same columns up to their marks give a point the same value. -/
theorem value_congr (h : t.columns.map Column.bare = s.columns.map Column.bare) (objective : Terms)
    (x : ColumnPoint) : t.value objective x = s.value objective x := by
  have hlen : t.columns.length = s.columns.length := by
    simpa using congrArg List.length h
  have hname : ∀ columns : List Column, ∀ l, columnValue (fun c => objective.coefficient c.name) columns l =
      columnValue (fun c => objective.coefficient c.name) (columns.map Column.bare) l := fun columns l =>
    (columnValue_map_bare (fun c => objective.coefficient c.name) columns l).symm
  rw [value, value, hlen]
  exact sum_congr rfl fun l _ => by rw [hname t.columns, hname s.columns, h]

/-- An admitted point is zero where the weights of phase two leave out a coefficient. -/
theorem Admits.sum_objectiveWeight (hx : s.Admits x) (objective : Terms) :
    ∑ l ∈ range s.columns.length, s.objectiveWeight objective l * x l = s.value objective x := by
  apply sum_congr rfl
  intro l hl
  obtain ⟨c, hcol⟩ : ∃ c, s.columns[l]? = some c := ⟨_, List.getElem?_eq_getElem (mem_range.mp hl)⟩
  rw [objectiveWeight, columnValue, columnValue, hcol]
  show (if c.eliminated = true then _ else _) * x l = _
  by_cases he : c.eliminated = true
  · rw [if_pos he, hx.zero l _ hcol (Or.inr he), mul_zero, mul_zero]
  · rw [if_neg he]

end Value

/-! ## The outcomes of a run -/

section Solve

/-- A state from which a run may start: with no artificial columns its objective row is already that of
phase two. -/
structure Startable (s : State) (m n : Nat) (setting : Setting) : Prop where
  canonical : s.Canonical m n
  goal_eq : s.goal = setting.goal
  direct : s.hasArtificials = false →
    s.Priced ∧ s.tableau.Prices m n (s.objectiveWeight setting.objective)

/-- Candidates that were offered before do not matter. -/
theorem Startable.of_offered (h : s.Startable m n setting) (offered : List (List Nat)) :
    ({ s with offered } : State).Startable m n setting :=
  ⟨h.canonical.congr rfl rfl rfl, h.goal_eq, h.direct⟩

theorem artificialFree_of_hasArtificials (h : s.hasArtificials = false) : s.ArtificialFree := by
  intro j c hcol hart
  have hno := List.any_eq_false.mp h c (List.mem_of_getElem? hcol)
  exact absurd hart hno

/-- The runs of phase two keep the problem of phase two. -/
theorem PhaseTwoReady.of_sameProblem (h : s.PhaseTwoReady t m n setting) (hcu : u.Canonical m n)
    (hpu : u.Priced) (hsame : t.SameProblem u m n) : s.PhaseTwoReady u m n setting where
  canonical := hcu
  priced := hpu
  prices := by
    have hweight : u.objectiveWeight setting.objective = t.objectiveWeight setting.objective := by
      rw [objectiveWeight, objectiveWeight, hsame.columns_eq]
    rw [hweight]
    exact h.prices.of_sameSystem hsame.system
  artificialFree := by
    unfold ArtificialFree
    rw [hsame.columns_eq]
    exact h.artificialFree
  bare_eq := by rw [hsame.columns_eq, h.bare_eq]
  admits_iff x := (hsame.admits_iff h.canonical hcu).trans (h.admits_iff x)
  blank hblank := (h.blank hblank).of_solves hcu hsame.columns_eq fun x => (hsame.system.solves_iff x).symm
  solves_of x hx hsol := by
    refine (hsame.system.solves_iff x).mp (h.solves_of x (fun j helim => hx j ?_) hsol)
    rwa [Eliminated, hsame.columns_eq]
  goal_eq := hsame.goal_eq.trans h.goal_eq

theorem PhaseTwoReady.of_phaseOne (hc : s.Canonical m n) (h : s.PhaseOneDone t m n)
    (h' : t.PhaseTwoReady u m n setting) : s.PhaseTwoReady u m n setting where
  canonical := h'.canonical
  priced := h'.priced
  prices := h'.prices
  artificialFree := h'.artificialFree
  bare_eq := by rw [h'.bare_eq, h.columns_eq]
  admits_iff x := (h'.admits_iff x).trans (h.admits_iff hc)
  blank hblank := h'.blank (hblank.of_solves h.canonical h.columns_eq h.solves_iff)
  solves_of x hx hsol := h'.solves_of x hx ((h.solves_iff x).mpr hsol)
  goal_eq := h'.goal_eq

theorem Canonical.corruption?_eq_none (hc : s.Canonical m n) : s.corruption? = none := by
  unfold corruption?
  rw [if_neg (by rw [hc.basis_length, hc.shaped.rowCount_eq]; simp),
    if_neg (by rw [hc.shaped.columnCount_eq (Nat.succ_pos m), hc.columns_length]; simp),
    Option.map_eq_none_iff, List.findSome?_eq_none_iff]
  intro entry hmem
  obtain ⟨i, hi⟩ := List.mem_iff_getElem?.mp hmem
  rw [List.getElem?_tail] at hi
  cases entry with
  | none => rfl
  | some k =>
    have hlt := (List.getElem?_eq_some_iff.mp hi).1
    have hlen := hc.basis_length
    rcases hc.slot (i + 1) (by omega) (by omega) with hnone | ⟨j, hj⟩
    · rw [hi] at hnone
      exact absurd hnone (by simp)
    · have hk := Option.some.inj (Option.some.inj (hi.symm.trans hj.2))
      have hjn := hc.basic_lt hj
      have hcn := hc.columns_length
      exact if_pos (by omega)

/-- A solution gives each column its value at the basic solution. -/
theorem Canonical.levelAt_eq (hc : s.Canonical m n) (j : Nat) :
    Solution.levelAt s.tableau s.basis j = s.basicPoint j := by
  cases h : s.rowOf? j with
  | none =>
    have hno := hc.rowOf?_eq_none_iff.mp h
    rw [basicPoint_of_rowOf? h]
    exact Solution.levelAt_eq_zero fun i hi hget => hno i ⟨Nat.one_le_iff_ne_zero.mpr hi, hget⟩
  | some i =>
    have hb := hc.rowOf?_eq_some_iff.mp h
    rw [hc.basicPoint_of_basicIn hb, ← hc.lastEntry_eq]
    refine Solution.levelAt_eq_of_row (Nat.one_le_iff_ne_zero.mp hb.1) hb.2 ?_
    intro k hk hget
    exact hc.row_unique ⟨Nat.one_le_iff_ne_zero.mpr hk, hget⟩ hb

/-- The end of phase two at a canonical state: the solution is read. -/
theorem Canonical.finish_run (hc : s.Canonical m n) (offset : Rat) :
    ∃ sol, (do liftM s.checkBasis; liftM (s.solution offset) : Step Solution).run s = (.ok sol, s) ∧
      sol.objective = s.tableau.entry 0 n + offset ∧
      sol.ReadsOff s.columns s.basicPoint (s.tableau.entry 0) := by
  obtain ⟨sol, hsol, hobj, hreads⟩ :=
    Solution.ofTableau_ok hc.shaped hc.columns_length hc.basis_length offset
  rw [funext hc.levelAt_eq] at hreads
  have hcheck : s.checkBasis = .ok () := by
    rw [checkBasis, hc.corruption?_eq_none]
    rfl
  refine ⟨sol, ?_, hobj, hreads⟩
  rw [run_bind, run_lift, hcheck]
  show (liftM (s.solution offset) : Step Solution).run s = _
  rw [run_lift, solution, hsol]

/-- The outcomes of a run from `s` to `t`: an optimum, an unbounded column, no admitted point, or the limit. -/
inductive Outcome (s t : State) (m n : Nat) (setting : Setting) : Except Fault Solution → Prop
  | optimal {sol : Solution} : sol.objective = t.tableau.entry 0 n + setting.offset →
      sol.ReadsOff t.columns t.basicPoint (t.tableau.entry 0) → s.PhaseTwoReady t m n setting →
      t.improving = [] → Outcome s t m n setting (.ok sol)
  | unbounded : s.PhaseTwoReady t m n setting → (∃ j ∈ t.improving, t.ratios j = []) →
      Outcome s t m n setting (.error .unbounded)
  | infeasible {report : String} : (∀ x, ¬s.Admits x) →
      Outcome s t m n setting (.error (.refusing .infeasible report none))
  | limit {report : String} : Outcome s t m n setting (.error (.refusing .iterationLimit report none))

/-- The outcomes of a computation that goes on with phase two. -/
theorem PhaseTwoReady.solve_cases {f : Progress → Step Solution} {x : Step Solution} {s' : State}
    (h : s.PhaseTwoReady t m n setting) (hfair : setting.tieBreak.Fair)
    (hx : x.run s' = (run setting setting.limit >>= f).run t) (hunbounded : f .unbounded = throw .unbounded)
    (hoptimal : f .optimal = do
      let s ← get
      liftM s.checkBasis
      liftM (s.solution setting.offset)) :
    ∃ r u, x.run s' = (r, u) ∧ s.Outcome u m n setting r := by
  obtain ⟨r, u, hrun, hcu, hpu, hsame, hout⟩ := run_cases hfair setting.limit h.canonical h.priced
  have hu := h.of_sameProblem hcu hpu hsame
  rw [hx]
  rcases hout with ⟨rfl, hopt⟩ | ⟨rfl, hunb⟩ | ⟨report, rfl⟩
  · obtain ⟨sol, hfin, hobj, hreads⟩ := hcu.finish_run setting.offset
    refine ⟨_, u, (run_bind_of_ok hrun).trans ?_, .optimal hobj hreads hu hopt⟩
    rw [hoptimal, run_bind_of_ok (run_get u), hfin]
  · refine ⟨_, u, (run_bind_of_ok hrun).trans ?_, .unbounded hu hunb⟩
    rw [hunbounded, run_throw]
  · exact ⟨_, u, run_bind_of_error hrun, .limit⟩

/-- The outcomes of a run. -/
theorem Startable.solve_cases (h : s.Startable m n setting) (hfair : setting.tieBreak.Fair) :
    ∃ r t, (solve setting).run s = (r, t) ∧ s.Outcome t m n setting r := by
  unfold solve
  rw [run_bind_of_ok (run_get s)]
  cases hart : s.hasArtificials with
  | true =>
    obtain ⟨r, t, hrun, hout⟩ := phaseOne_cases hfair h.canonical
    rcases hout with ⟨rfl, hdone⟩ | ⟨report, rfl, hno⟩ | ⟨report, rfl⟩
    · obtain ⟨u, htrans, hready⟩ := hdone.transition_run setting
      exact (PhaseTwoReady.of_phaseOne h.canonical hdone hready).solve_cases hfair
        ((run_bind_of_ok hrun).trans (run_bind_of_ok htrans)) rfl rfl
    · exact ⟨_, t, run_bind_of_error hrun, .infeasible hno⟩
    · exact ⟨_, t, run_bind_of_error hrun, .limit⟩
  | false =>
    obtain ⟨hp, hw⟩ := h.direct hart
    set t : State := { s with phase := .two } with ht
    have hct : t.Canonical m n := h.canonical.congr rfl rfl rfl
    have hready : s.PhaseTwoReady t m n setting := ⟨hct, hp.congr rfl rfl, hw,
      artificialFree_of_hasArtificials hart, rfl, fun x => by
        rw [hct.admits_iff, h.canonical.admits_iff], id, fun _ _ => id, h.goal_eq⟩
    exact hready.solve_cases hfair (run_bind_of_ok (run_modify s _)) rfl rfl

/-- A run that returns a solution ends at an optimum, and the solution is read off there. -/
theorem Startable.solved (h : s.Startable m n setting) (hfair : setting.tieBreak.Fair) {sol : Solution}
    (hrun : (solve setting).run s = (.ok sol, t)) : s.PhaseTwoReady t m n setting ∧ t.improving = [] ∧
      sol.objective = t.tableau.entry 0 n + setting.offset ∧
      sol.ReadsOff t.columns t.basicPoint (t.tableau.entry 0) := by
  obtain ⟨r, u, hrun', hout⟩ := h.solve_cases hfair
  obtain ⟨rfl, rfl⟩ := Prod.mk.inj (hrun'.symm.trans hrun)
  cases hout with
  | optimal hobj hreads hready hopt => exact ⟨hready, hopt, hobj, hreads⟩

end Solve

/-! ## What the outcomes mean -/

section Meaning

variable (h : s.PhaseTwoReady t m n setting)
include h

/-- Points that are nonnegative solutions and zero on what may not be used are admitted. -/
theorem PhaseTwoReady.admits_of_usable (hnn : ∀ k, 0 ≤ x k) (hzero : ∀ k, ¬t.Usable k → x k = 0)
    (hsol : t.tableau.Solves m n x) : t.Admits x := by
  refine h.canonical.admits_iff.mpr ⟨fun j _ => hnn j, fun j c hcol hbad => hzero j ?_, hsol⟩
  rintro ⟨c', hcol', he, hp⟩
  rw [Option.some.inj (hcol'.symm.trans hcol)] at he hp
  rcases hbad with hforb | helim
  · rcases Bool.or_eq_true_iff.mp hforb with hart | hps
    · rw [h.artificialFree j c hcol hart] at he
      exact absurd he (by simp)
    · rw [hps] at hp
      exact absurd hp (by simp)
  · rw [helim] at he
    exact absurd he (by simp)

theorem PhaseTwoReady.sum_weight (hx : t.Admits x) :
    ∑ l ∈ range n, t.objectiveWeight setting.objective l * x l = s.value setting.objective x := by
  rw [← h.canonical.columns_length, hx.sum_objectiveWeight, value_congr h.bare_eq]

/-- The basic solution is admitted. -/
theorem PhaseTwoReady.admits_basicPoint : t.Admits t.basicPoint :=
  h.admits_of_usable h.canonical.basicPoint_nonneg (fun _ hk => h.canonical.basicPoint_of_not_usable hk)
    h.canonical.solves_basicPoint

/-- At an optimum the basic solution is admitted at the start of the run, its value stands in row 0, and no
admitted point is better. -/
theorem PhaseTwoReady.optimal (hopt : t.improving = []) :
    s.Admits t.basicPoint ∧ s.value setting.objective t.basicPoint = t.tableau.entry 0 n ∧
      ∀ y, s.Admits y → s.value setting.objective y * setting.goal.sign ≤
        s.value setting.objective t.basicPoint * setting.goal.sign := by
  have hc := h.canonical
  have hadm := h.admits_basicPoint
  have hval : s.value setting.objective t.basicPoint = t.tableau.entry 0 n := by
    rw [← h.sum_weight hadm, hc.weight_basicPoint h.prices h.priced]
  refine ⟨(h.admits_iff _).mp hadm, hval, ?_⟩
  intro y hy
  have hy' := (h.admits_iff y).mpr hy
  have hle := hc.weight_le_of_optimal h.prices hopt hy'
  rwa [h.sum_weight hy', h.goal_eq, ← hval] at hle

/-- At an unbounded column there are admitted points beyond every number. -/
theorem PhaseTwoReady.exists_gt (hj : j ∈ t.improving) (hnil : t.ratios j = []) (bound : Rat) :
    ∃ y, s.Admits y ∧ bound * setting.goal.sign < s.value setting.objective y * setting.goal.sign := by
  have hc := h.canonical
  obtain ⟨v, hv, hlt⟩ := hc.exists_weight_gt h.prices h.priced hj bound
  obtain ⟨hnn, hzero, hsol⟩ := hc.moved_of_unbounded h.priced hj hnil hv
  have hadm := h.admits_of_usable hnn hzero hsol
  refine ⟨_, (h.admits_iff _).mp hadm, ?_⟩
  rwa [h.sum_weight hadm, h.goal_eq] at hlt

end Meaning

end ExactLP.Simplex.State
