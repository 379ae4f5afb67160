import ExactLP.Proofs.Equations.Growth
import ExactLP.Proofs.Simplex.Lossless
import ExactLP.Proofs.Simplex.Report
import ExactLP.Proofs.Standard.Parts

/-!
# Proofs.Simplex.Complementary — complementary slackness and the signs of prices

At an optimum every column is zero or costs nothing, and no cost has the sign that would improve the goal.  For a
split variable only the cost of the added part is reported.  Raising both parts alike changes neither the rows nor the
objective, so where both parts have a column the added one costs nothing.

* `State.Canonical.basicPoint_mul_cost`, `PhaseTwoReady.cost_nonneg`: values and costs of single columns.
* `LaidOut.feasible_add`, `PhaseTwoReady.cost_eq_zero_of_free`: a direction in which a point may move for nothing.
* `cost_of_parts`: the cost of an added part.
* `solve_complementary`: what a solution reports together.
* `exists_negative_price`: a label with a surplus column and a price of the wrong sign.
-/

open Finset

namespace ExactLP

variable {objective : Terms} {rows : List Row} {unknowns condition split : List String} {internalFrom : Option Int}
  {e : Equations} {sol : Solution} {x d : ColumnPoint} {z : Assignment} {c : Column} {j : Nat} {name : String}

/-! ## Values and costs of columns -/

namespace Simplex.State

variable {s t : State} {m n : Nat} {setting : Setting}

/-- A column is zero at the basic solution or costs nothing. -/
theorem Canonical.basicPoint_mul_cost (hc : t.Canonical m n) (hp : t.Priced) (j : Nat) :
    t.basicPoint j * t.tableau.entry 0 j = 0 := by
  cases hrow : t.rowOf? j with
  | none => rw [basicPoint_of_rowOf? hrow, zero_mul]
  | some i => rw [hp i j (hc.rowOf?_eq_some_iff.mp hrow), mul_zero]

variable (h : s.PhaseTwoReady t m n setting)
include h

/-- At an optimum no column costs what would improve the goal, eliminated ones included; only pseudo columns may. -/
theorem PhaseTwoReady.cost_nonneg (hblank : s.Blank m) (hopt : t.improving = []) (hcol : t.columns[j]? = some c)
    (hreal : c.role.isPseudo = false) : 0 ≤ setting.goal.sign * t.tableau.entry 0 j := by
  cases he : c.eliminated with
  | true => rw [h.cost_of_eliminated hblank ⟨c, hcol, he⟩, mul_zero]
  | false =>
    have hno : j ∉ t.improving := hopt ▸ List.not_mem_nil
    have hcost := not_lt.mp fun hneg => hno (mem_improving.mpr ⟨⟨c, hcol, he, hreal⟩, hneg⟩)
    rwa [signedCost, h.goal_eq, mul_comm] at hcost

end Simplex.State

/-! ## Moving for nothing -/

section Directions

namespace Equations

theorem value_add (objective : Terms) (x d : ColumnPoint) :
    (e.value objective fun j => x j + d j) = e.value objective x + e.value objective d := by
  simp only [value, mul_add, sum_add_distrib]

/-- An assignment that is not negative as a direction over the variables. -/
theorem LaidOut.exists_direction {names : List String} {aux : List (List (Column × Rat))}
    (h : e.LaidOut names rows unknowns aux) (hz : ∀ name, 0 ≤ z name) :
    ∃ d, e.Gives d z ∧ (∀ j, 0 ≤ d j) ∧ ∀ j, unknowns.length ≤ j → d j = 0 := by
  refine ⟨_, h.gives_append z [], fun j => ?_, fun j hj => List.getD_eq_default _ _ (by simpa using hj)⟩
  rw [List.append_nil, List.getD_eq_getElem?_getD, List.getElem?_map]
  cases unknowns[j]? with
  | none => exact le_rfl
  | some name => exact hz name

/-- A feasible point may move in a direction over the variables that is not negative and leaves all rows alone. -/
theorem LaidOut.feasible_add {names : List String} {aux : List (List (Column × Rat))}
    (h : e.LaidOut names rows unknowns aux) (hx : e.Feasible x) (hgives : e.Gives d z) (hnn : ∀ j, 0 ≤ d j)
    (hzero : ∀ j, unknowns.length ≤ j → d j = 0) (hnd : ∀ row ∈ rows, row.names.Nodup)
    (hrows : ∀ row ∈ rows, row.terms.eval z = 0) : e.Feasible fun j => x j + d j := by
  refine ⟨fun j hj => add_nonneg (hx.nonneg j hj) (hnn j), fun j c hj hc => ?_, fun line hline => ?_⟩
  · have hge : unknowns.length ≤ j := by
      by_contra hlt
      rw [Role.isForbidden_of_isVariable ((h.isVariable_iff hj).mpr (not_le.mp hlt))] at hc
      cases hc
    rw [hx.zero j c hj hc, hzero j hge, add_zero]
  · obtain ⟨i, hi⟩ := List.mem_iff_getElem?.mp hline
    have hlt : i < rows.length := h.length_rows ▸ (List.getElem?_eq_some_iff.mp hi).1
    have hrow := List.getElem?_eq_getElem hlt
    obtain ⟨label, internal, haux⟩ := h.getElem?_aux hrow
    have hown : ∀ q ∈ ownValues unknowns aux i (auxiliaries rows[i].cmp label internal) d, q = 0 := by
      intro q hq
      obtain ⟨k, -, rfl⟩ := List.mem_map.mp hq
      exact hzero _ (Nat.le_add_right _ _)
    have hmove := h.sum_equation hgives hrow (hnd _ (List.getElem_mem hlt)) haux
    rw [hrows _ (List.getElem_mem hlt), dot_comm, dot_of_zero hown, add_zero,
      ← Option.some.inj (hi.symm.trans (h.getElem?_rows hrow))] at hmove
    simp only [mul_add, sum_add_distrib]
    rw [hx.holds line hline, hmove, add_zero]

end Equations

/-- The form has value zero where its names have. -/
theorem Terms.eval_eq_zero {terms : Terms} (h : ∀ name ∈ terms.names, z name = 0) : terms.eval z = 0 := by
  induction terms with
  | nil => rfl
  | cons p rest ih =>
    rw [eval_cons, h p.1 List.mem_cons_self, ih fun name hname => h name (List.mem_cons_of_mem _ hname), mul_zero,
      add_zero]

/-- Both parts of one variable are one, and all else is zero. -/
def bothParts (split : List String) (y : String) : Assignment :=
  ofParts split (fun x => if x = y then 1 else 0) (fun x => if x = y then 1 else 0) fun _ => 0

theorem bothParts_nonneg (split : List String) (y name : String) : 0 ≤ bothParts split y name := by
  have hpart : ∀ x ∈ split, (0 : Rat) ≤ if x = y then 1 else 0 := by
    intro x _
    split
    · exact zero_le_one
    · exact le_rfl
  exact ofParts_nonneg hpart hpart le_rfl

theorem bothParts_positivePart {y : String} (hy : y ∈ split) : bothParts split y (positivePart y) = 1 := by
  rw [bothParts, ofParts_positivePart hy, if_pos rfl]

/-- The parts cancel each other. -/
theorem joinParts_bothParts (h : ∀ x ∈ split, name ≠ positivePart x ∧ name ≠ negativePart x) (y : String) :
    joinParts split (bothParts split y) name = 0 := by
  rw [bothParts, joinParts_ofParts h]
  split
  · exact sub_self _
  · rfl

theorem Terms.eval_split_bothParts {terms : Terms} (hnd : terms.names.Nodup) (h : Unsplit split terms.names)
    (y : String) : (terms.split split).eval (bothParts split y) = 0 := by
  rw [eval_split hnd h]
  exact eval_eq_zero fun name hname => joinParts_bothParts (h name hname) y

theorem Row.eval_split_bothParts {row : Row} (hnd : row.names.Nodup) (h : Unsplit split row.names) (y : String) :
    (row.split split).normalized.terms.eval (bothParts split y) = 0 := by
  have hzero : (row.split split).terms.eval (bothParts split y) = 0 := by
    rw [Row.eval_split hnd h]
    exact Terms.eval_eq_zero fun name hname => joinParts_bothParts (h name hname) y
  unfold normalized
  split
  · exact (Terms.eval_nonzero _ _).trans (by rw [Terms.eval_scale, hzero, zero_mul])
  · exact hzero

end Directions

/-! ## The end of a run -/

namespace Simplex

variable {setting : Setting} {s t : State}

/-- What holds at the end of a run on the equations `e` that returns a solution. -/
structure AtOptimum (e : Equations) (setting : Setting) (t : State) (sol : Solution) : Prop where
  carries : t.Carries e setting.objective
  feasible : e.Feasible t.basicPoint
  complementary : ∀ j, t.basicPoint j * t.tableau.entry 0 j = 0
  cost_nonneg : ∀ (j : Nat) (c : Column), e.columns[j]? = some c → c.role.isPseudo = false →
    0 ≤ setting.goal.sign * t.tableau.entry 0 j
  reads : sol.ReadsOff e.columns t.basicPoint (t.tableau.entry 0)

theorem solve_atOptimum (hfair : setting.tieBreak.Fair)
    (hrows : Equations.ofRows setting.objective.names rows condition split internalFrom = .ok e)
    (hstart : State.ofEquations setting e = .ok s) (offered : List (List Nat))
    (hrun : (solve setting).run { s with offered } = (.ok sol, t)) : AtOptimum e setting t sol := by
  have h := (Equations.laidOut_of_ofRows hrows).1
  obtain ⟨hfeas, hreads⟩ := solve_reads hfair hrows hstart offered hrun
  obtain rfl := State.ofEquations_eq hstart
  obtain ⟨hready, hopt, -, -⟩ := ((State.initial_startable h).of_offered offered).solved hfair hrun
  have hvalue : ∀ y, (State.initial setting e).value setting.objective y = e.value setting.objective y :=
    State.value_initial setting.objective
  have hcarries := hready.carries rfl (map_bare_columns h)
    (fun _ => State.admits_iff_feasible_of_offered h offered) hvalue
  refine ⟨hcarries, hfeas, hready.canonical.basicPoint_mul_cost hready.priced, fun j c hcol hreal => ?_, hreads⟩
  obtain ⟨c', hcol', hbare⟩ := State.exists_of_map_bare_eq hready.bare_eq.symm hcol
  have hrole : c'.role = c.role := (congrArg Column.role hbare : c'.bare.role = c.bare.role)
  exact hready.cost_nonneg (State.initial_blank h offered _) hopt hcol' (hrole ▸ hreal)

/-- Where the basic point may move in a direction for nothing, the columns that are raised cost nothing. -/
theorem AtOptimum.cost_eq_zero_of_raised (h : AtOptimum e setting t sol)
    (hmove : e.Feasible fun l => t.basicPoint l + d l) (hnn : ∀ l, 0 ≤ d l)
    (hreal : ∀ l c, e.columns[l]? = some c → d l ≠ 0 → c.role.isPseudo = false)
    (hvalue : e.value setting.objective d = 0) (hj : j < e.columns.length) (hd : d j ≠ 0) :
    t.tableau.entry 0 j = 0 := by
  have hbefore := h.carries.value_eq _ h.feasible
  have hafter := h.carries.value_eq _ hmove
  rw [Equations.value_add, hvalue, add_zero, hbefore] at hafter
  simp only [mul_add, sum_add_distrib] at hafter
  have hsum : ∑ l ∈ range e.columns.length, setting.goal.sign * t.tableau.entry 0 l * d l = 0 := by
    simp only [mul_assoc, ← mul_sum]
    rw [show ∑ l ∈ range e.columns.length, t.tableau.entry 0 l * d l = 0 by linarith, mul_zero]
  -- no column that is raised has a cost below zero, so that none of them adds anything
  have hterm : ∀ l ∈ range e.columns.length, 0 ≤ setting.goal.sign * t.tableau.entry 0 l * d l := by
    intro l hl
    by_cases hzero : d l = 0
    · rw [hzero, mul_zero]
    · have hcol := List.getElem?_eq_getElem (mem_range.mp hl)
      exact mul_nonneg (h.cost_nonneg l _ hcol (hreal l _ hcol hzero)) (hnn l)
  have hown := (sum_eq_zero_iff_of_nonneg hterm).mp hsum j (mem_range.mpr hj)
  have hsign : setting.goal.sign ≠ 0 := by cases setting.goal <;> decide
  simpa [hsign, hd] using hown

/-- The part of a split variable that is added costs nothing: the other part may be raised with it. -/
theorem AtOptimum.cost_of_added (h : AtOptimum e setting t sol)
    (he : Equations.ofRows setting.objective.names (rows.map (·.split split)) condition split internalFrom = .ok e)
    (hsetting : setting.objective = objective.split split) (hobj : objective.names.Nodup)
    (hnd : ∀ row ∈ rows, row.names.Nodup) (hunsplit : Unsplit split (objective.names ++ rows.flatMap Row.names))
    (hplace : Solution.place? Solution.added? e.columns (some name) = some j) : t.tableau.entry 0 j = 0 := by
  obtain ⟨hunsplitObjective, hunsplitRows⟩ := unsplit_append.mp hunsplit
  have hlaid := (Equations.laidOut_of_ofRows he).1
  obtain ⟨d, hgives, hnn, hzero⟩ := hlaid.exists_direction (bothParts_nonneg split name)
  have hrows : ∀ row ∈ (rows.map (·.split split)).map Row.normalized, row.terms.eval (bothParts split name) = 0 := by
    refine List.forall_mem_map.mpr (List.forall_mem_map.mpr fun row hrow => ?_)
    exact row.eval_split_bothParts (hnd row hrow)
      (hunsplitRows.mono fun name hname => List.mem_flatMap.mpr ⟨row, hrow, hname⟩) name
  have hkeyed : ∀ row ∈ (rows.map (·.split split)).map Row.normalized, row.names.Nodup :=
    List.forall_mem_map.mpr (List.forall_mem_map.mpr fun row hrow =>
      Row.nodup_names_normalized (Row.nodup_names_split (hnd row hrow) split))
  have hvalue : e.value setting.objective d = 0 := by
    rw [hlaid.value_of_gives (hsetting ▸ Terms.nodup_split _ _)
      (fun _ hname => hlaid.mem_unknowns_of_objective hname) hgives, hsetting]
    exact Terms.eval_split_bothParts hobj hunsplitObjective name
  have hreal : ∀ l c, e.columns[l]? = some c → d l ≠ 0 → c.role.isPseudo = false := by
    intro l c hcol hne
    have hlt := not_le.mp fun hge => hne (hzero l hge)
    exact Role.isPseudo_of_isVariable ((hlaid.isVariable_iff hcol).mpr hlt)
  obtain ⟨c, hcol, hkey⟩ := Solution.place?_spec hplace
  obtain ⟨hname, hcname⟩ := Equations.added_spec he (List.mem_of_getElem? hcol) hkey
  have hone : d j = 1 := by
    rw [hgives j c hcol (Equations.isVariable_of_added hkey), hcname, bothParts_positivePart hname]
  refine h.cost_eq_zero_of_raised (hlaid.feasible_add h.feasible hgives hnn hzero hkeyed hrows) hnn hreal hvalue
    (List.getElem?_eq_some_iff.mp hcol).1 ?_
  rw [hone]
  exact one_ne_zero

/-! ## Reported values and costs -/

section Reported

open Equations (ReportedLast)

/-- What a solution of a problem over the parts of split variables says of every name and every label.  A variable is
zero or has no reduced cost, a row has no gap or no price, and no reduced cost of a variable with a sign would improve
the goal.  Nor would the price of a row that is no equality, where no later row is reported under its label. -/
theorem solve_complementary (hfair : setting.tieBreak.Fair) (hobj : objective.names.Nodup)
    (hnd : ∀ row ∈ rows, row.names.Nodup) (hunsplit : Unsplit split (objective.names ++ rows.flatMap Row.names))
    (hsetting : setting.objective = objective.split split)
    (hrows : Equations.ofRows setting.objective.names (rows.map (·.split split)) condition split internalFrom = .ok e)
    (hstart : State.ofEquations setting e = .ok s) (offered : List (List Nat))
    (hrun : (solve setting).run { s with offered } = (.ok sol, t)) :
    (sol.reducedCost.names = sol.values.names ∧ ∀ name, sol.value name * sol.cost name = 0) ∧
      (sol.dual.names = sol.slacks.names ∧
        ∀ key, (sol.slacks.find? key).getD 0 * (sol.dual.find? key).getD 0 = 0) ∧
      (∀ name, name ∉ split → 0 ≤ setting.goal.sign * sol.cost name) ∧
      ∀ i row, ReportedLast rows internalFrom i row → row.cmp ≠ .eq →
        ∃ price, sol.dual.find? (some (row.labelAt i)) = some price ∧ 0 ≤ setting.goal.sign * price := by
  have h := solve_atOptimum hfair hrows hstart offered hrun
  have hlaid := (Equations.laidOut_of_ofRows hrows).1
  refine ⟨⟨h.reads.names_reducedCost, fun name => ?_⟩, ⟨h.reads.names_dual, fun key => ?_⟩, fun name hname => ?_,
    fun i row hlast hcmp => ?_⟩
  · by_cases hpart : Solution.HasPart e.columns name
    · have hcost : sol.cost name = 0 := by
        rw [h.reads.split_cost_eq name hpart]
        cases hplace : Solution.place? Solution.added? e.columns (some name) with
        | none => rfl
        | some j => exact h.cost_of_added hrows hsetting hobj hnd hunsplit hplace
      rw [hcost, mul_zero]
    · rw [h.reads.own_eq name hpart, h.reads.own_cost_eq name hpart]
      cases Solution.place? Solution.own? e.columns (some name) with
      | none => exact zero_mul _
      | some j => exact h.complementary j
  · rw [h.reads.slacks_eq, h.reads.dual_eq]
    cases Solution.place? Solution.label? e.columns key with
    | none => exact zero_mul _
    | some j => exact h.complementary j
  · rw [h.reads.own_cost_eq name fun hpart => hname (Equations.mem_of_hasPart hrows hpart)]
    cases hplace : Solution.place? Solution.own? e.columns (some name) with
    | none => exact (mul_zero _).ge
    | some j =>
      obtain ⟨c, hcol, hkey⟩ := Solution.place?_spec hplace
      exact h.cost_nonneg j c hcol (Role.isPseudo_of_isVariable (Equations.isVariable_of_own hkey))
  · have hlast' := (hlast.map fun r => r.label_split split).map Row.label_normalized
    have hplace := hlaid.place?_label hlast'
    obtain ⟨c, hcol, -⟩ := hlaid.label_spec hlast'.row_eq hlast'.reported
    have hreal := hlaid.not_isPseudo_of_labelPosition hlast'.row_eq
      (Row.cmp_normalized_ne_eq (row.cmp_split split ▸ hcmp)) hcol
    rw [Row.labelAt_congr (Row.label_normalized _), Row.labelAt_congr (row.label_split split)] at hplace
    refine ⟨_, ?_, h.cost_nonneg _ c hcol hreal⟩
    rw [h.reads.dual_eq, hplace, Option.map_some]

end Reported

/-! ## A problem with a free variable, and one with a shared label -/

section Problems

/-- The objective `2 x + y`. -/
def freeObjective : Terms := [("x", 2), ("y", 1)]

/-- Minimize `2 x + y` over the parts of `x`. -/
def freeSetting : Setting := { goal := .minimize, objective := freeObjective.split ["x"], tieBreak := .first }

/-- The rows `x ≥ -3`, called `low`, `x + y ≥ 1`, which has no name, and `y ≤ 10`, called `cap`. -/
def freeRows : List Row :=
  [⟨[("x", 1)], .ge, -3, some "low"⟩, ⟨[("x", 1), ("y", 1)], .ge, 1, none⟩, ⟨[("y", 1)], .le, 10, some "cap"⟩]

/-- The least value is reached at a negative `x`. -/
theorem solve_complementary_sample :
    ∃ e s sol t, Equations.ofRows freeSetting.objective.names (freeRows.map (·.split ["x"])) [] ["x"] none = .ok e ∧
      State.ofEquations freeSetting e = .ok s ∧ (solve freeSetting).run s = (.ok sol, t) ∧
      sol.value "x" = -3 ∧ sol.slacks = [(some "low", 0), (some "2", 0), (some "cap", 6)] ∧
      sol.dual = [(some "low", -1), (some "2", -1), (some "cap", 0)] ∧
      ∀ name, sol.value name * sol.cost name = 0 := by
  have hend : (ending? freeSetting (freeRows.map (·.split ["x"])) ["x"]).map Prod.fst = some (.ok {
      objective := -2
      values := [(some "y", 4), (some "x", -3)]
      slacks := [(some "low", 0), (some "2", 0), (some "cap", 6)]
      reducedCost := [(some "y", 0), (some "x", 0)]
      dual := [(some "low", -1), (some "2", -1), (some "cap", 0)] }) := by
    decide +kernel
  obtain ⟨⟨r, t⟩, hr, rfl⟩ := Option.map_eq_some_iff.mp hend
  obtain ⟨e, s, he, hs, hrun⟩ := exists_run_of_ending? hr
  have hobj : freeObjective.names.Nodup := by decide
  have hsetting : freeSetting.objective = freeObjective.split ["x"] := rfl
  obtain ⟨⟨-, hzero⟩, -⟩ := solve_complementary TieBreak.fair_first hobj (by decide) (by decide) hsetting he hs
    s.offered hrun
  exact ⟨e, s, _, t, he, hs, hrun, by decide +kernel, rfl, rfl, hzero⟩

/-- The rows `x ≤ 5` and `x = 3`, both called `a`. -/
def doubledRows : List Row := [⟨[("x", 1)], .le, 5, some "a"⟩, ⟨[("x", 1)], .eq, 3, some "a"⟩]

/-- At the maximum of `x` the label `a`, which has a surplus column, is reported with a negative price: that of the
equality. -/
theorem exists_negative_price :
    ∃ e s sol t, Equations.ofRows ["x"] doubledRows [] [] none = .ok e ∧
      State.ofEquations singleSetting e = .ok s ∧ (solve singleSetting).run s = (.ok sol, t) ∧
      (∃ c ∈ t.columns, c.role = .surplus (some "a") ∧ Solution.label? c = some (some "a")) ∧
      sol.dual = [(some "a", -1)] ∧ ¬0 ≤ singleSetting.goal.sign * (sol.dual.find? (some "a")).getD 0 := by
  have hend : (ending? singleSetting doubledRows).map (fun r =>
      (r.1, r.2.columns.any fun c => c.role == .surplus (some "a") && Solution.label? c == some (some "a"))) =
      some (.ok {
        objective := 3
        values := [(some "x", 3)]
        slacks := [(some "a", 0)]
        reducedCost := [(some "x", 0)]
        dual := [(some "a", -1)] }, true) := by
    decide +kernel
  obtain ⟨⟨r, t⟩, hr, hres⟩ := Option.map_eq_some_iff.mp hend
  obtain ⟨rfl, hcol⟩ := Prod.mk.inj hres
  obtain ⟨e, s, he, hs, hrun⟩ := exists_run_of_ending? hr
  obtain ⟨c, hc, hspec⟩ := List.any_eq_true.mp hcol
  have hspec : c.role = .surplus (some "a") ∧ Solution.label? c = some (some "a") := by simpa using hspec
  exact ⟨e, s, _, t, he, hs, hrun, ⟨c, hc, hspec⟩, rfl, by decide +kernel⟩

end Problems

end Simplex

end ExactLP
