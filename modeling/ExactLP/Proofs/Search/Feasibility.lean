import ExactLP.Proofs.Search.Optimality
import ExactLP.Proofs.Simplex.Reading
import ExactLP.Proofs.Standard.Meaning

/-!
# Proofs.Search.Feasibility — what a search returns satisfies the problem

Whatever the budget and the threshold, every incumbent of a search is a solution of some relaxation whose values
are integral where they must be.  Such a solution satisfies the constraints of the problem, when rows that must
hold are read as inclusive.

* `Problem.Allows`: what the values of a solution satisfy.
* `IntegralAt`: the values that must be integral are; `fractional?_eq_none_iff`, `fractional?_spec`: what is fractional.
* `Found`: an incumbent; `explore_found`, `run_found`: every exploration leaves one or none.
* `solve_feasible`: the solution of a search satisfies the problem.
-/

namespace ExactLP

/-- The names in the objective, in the rows and in the declarations of a problem. -/
def Problem.callers (p : Problem) : List String :=
  p.objective.names ++ (p.constraints.flatMap fun c => c.operands.flatMap Row.names) ++ p.binary ++ p.integer ++
    p.unrestricted

theorem Problem.mem_callers_of_binary {p : Problem} {name : String} (h : name ∈ p.binary) : name ∈ p.callers := by
  simp only [callers, List.mem_append]
  exact Or.inl (Or.inl (Or.inr h))

theorem Problem.mem_callers_of_operand {p : Problem} {c : Constraint} {row : Row} {name : String}
    (hc : c ∈ p.constraints) (hrow : row ∈ c.operands) (hname : name ∈ row.names) : name ∈ p.callers := by
  simp only [callers, List.mem_append]
  exact Or.inl (Or.inl (Or.inl (Or.inr
    (List.mem_flatMap.mpr ⟨c, hc, List.mem_flatMap.mpr ⟨row, hrow, hname⟩⟩))))

/-- The values respect the declarations of the problem and satisfy its constraints, when rows that must hold are
read as inclusive. -/
structure Problem.Allows (p : Problem) (v : Assignment) : Prop where
  nonneg : ∀ name, name ∉ p.unrestricted → 0 ≤ v name
  binary : ∀ name ∈ p.binary, IsBit (v name)
  integer : ∀ name ∈ p.integer, (v name).den = 1
  holds : ∀ c ∈ p.constraints, c.HoldsInclusive v

/-! ## Values without conditions -/

section Without

variable {names : List String} {name : String}

theorem Keyed.find?_filter_key {κ α : Type} [DecidableEq κ] (keyed : Keyed κ α) (keep : κ → Bool) (key : κ) :
    Keyed.find? (keyed.filter fun p => keep p.1) key = if keep key then keyed.find? key else none := by
  induction keyed with
  | nil => exact (ite_self _).symm
  | cons p rest ih =>
    by_cases hp : p.1 = key
    · rw [List.filter_cons, find?, if_pos hp, hp]
      split
      · rw [find?, if_pos hp]
      · rename_i hno
        rw [ih, if_neg hno]
    · rw [List.filter_cons, find?, if_neg hp]
      split
      · rw [find?, if_neg hp, ih]
      · exact ih

theorem Solution.value_without (s : Solution) (names : List String) (name : String) :
    (s.without names).value name = if name ∈ names then 0 else s.value name := by
  have hfind := Keyed.find?_filter_key s.values (fun k => !k.any names.contains) (some name)
  rw [value, value]
  refine (congrArg (Option.getD · 0) hfind).trans ?_
  by_cases h : name ∈ names <;> simp [h]

end Without

namespace Search

variable {b : Search} {problem : Problem} {options : SearchOptions} {found sol : Solution} {extra : List Row}
  {nodes : List Node} {incumbent : Option Solution} {root : Rat} {offered : List (List Nat)} {z : Assignment}
  {name : String}

/-! ## Incumbents -/

section Incumbents

theorem den_of_isBit {q : Rat} (h : IsBit q) : q.den = 1 := by
  rcases h with rfl | rfl
  · rfl
  · rfl

theorem not_isBit_iff {q : Rat} : ¬IsBit q ↔ (q != 0 && q != 1) = true := by
  rw [IsBit, not_or, Bool.and_eq_true, bne_iff_ne, bne_iff_ne]

/-- The values of the variables that must be integral are. -/
structure IntegralAt (b : Search) (v : Assignment) : Prop where
  binary : ∀ name ∈ b.binary, IsBit (v name)
  integer : ∀ name ∈ b.integer, (v name).den = 1

/-- Nothing is fractional exactly where the values are integral. -/
theorem fractional?_eq_none_iff : b.fractional? found = none ↔ b.IntegralAt found.value := by
  unfold fractional?
  constructor
  · intro hnone
    split at hnone
    · cases hnone
    · rename_i hbinary
      refine ⟨fun name hname => ?_, fun name hname => ?_⟩
      · exact not_not.mp (mt not_isBit_iff.mp (List.find?_eq_none.mp hbinary name hname))
      · simpa using List.find?_eq_none.mp hnone name hname
  · intro h
    have hbinary : (b.binary.find? fun name => found.value name != 0 && found.value name != 1) = none := by
      exact List.find?_eq_none.mpr fun name hname => mt not_isBit_iff.mpr (not_not.mpr (h.binary name hname))
    rw [hbinary]
    exact List.find?_eq_none.mpr fun name hname => by simpa using h.integer name hname

/-- What is fractional is the first binary that is neither 0 nor 1, and else the first integer that is none; that one is
no binary, since the value of every binary is an integer then. -/
theorem fractional?_spec (h : b.fractional? found = some name) :
    (name ∈ b.binary ∧ ¬IsBit (found.value name)) ∨
      (name ∉ b.binary ∧ name ∈ b.integer ∧ (found.value name).den ≠ 1) := by
  unfold fractional? at h
  split at h
  · rename_i other hother
    obtain rfl := Option.some.inj h
    have hvalue := List.find?_some hother
    exact Or.inl ⟨List.mem_of_find?_eq_some hother, not_isBit_iff.mpr hvalue⟩
  · rename_i hbinary
    have hvalue : (found.value name).den ≠ 1 := by simpa using List.find?_some h
    refine Or.inr ⟨fun hname => hvalue (den_of_isBit ?_), List.mem_of_find?_eq_some h, hvalue⟩
    exact not_not.mp (mt not_isBit_iff.mp (List.find?_eq_none.mp hbinary name hname))

theorem value_ne_zero_of_fractional? (h : b.fractional? found = some name) : found.value name ≠ 0 := by
  intro hzero
  rcases fractional?_spec h with ⟨-, hbit⟩ | ⟨-, -, hden⟩
  · exact hbit (Or.inl hzero)
  · exact hden (hzero ▸ rfl)

/-- The solution of a relaxation whose values are integral where they must be. -/
structure Found (b : Search) (found : Solution) : Prop where
  relaxed : ∃ extra offered, (b.relaxed extra offered).1 = .ok found
  integral : b.fractional? found = none

/-- A relaxation names no branch rows. -/
theorem relax_run_eq (extra : List Row) (s : SearchState) :
    ∃ t, (b.relax extra).run s = ((b.relaxed extra s.offered).1, t) ∧ t.branchRows = s.branchRows := ⟨_, rfl, rfl⟩

/-- No branches are selected only where nothing is fractional. -/
theorem fractional?_of_selectBranch {s t : SearchState} (h : (b.selectBranch found).run s = (.ok none, t)) :
    b.fractional? found = none := by
  unfold selectBranch at h
  split at h
  · obtain ⟨branches, u, -, hrest⟩ := ok_of_run_bind h
    cases (Prod.mk.inj hrest).1
  · rename_i hnone
    exact hnone

/-- An exploration leaves an incumbent that was found, or none. -/
theorem explore_found (budget : Nat) (hincumbent : ∀ best, incumbent = some best → b.Found best)
    {s t : SearchState} {e : Exploration} (hrun : (b.explore root budget nodes incumbent).run s = (.ok e, t)) :
    ∀ best, e.incumbent = some best → b.Found best := by
  induction budget generalizing nodes incumbent s with
  | zero =>
    cases nodes with
    | nil => exact Except.ok.inj (Prod.mk.inj hrun).1 ▸ hincumbent
    | cons node rest => exact Except.ok.inj (Prod.mk.inj hrun).1 ▸ hincumbent
  | succ budget ih =>
    cases nodes with
    | nil => exact Except.ok.inj (Prod.mk.inj hrun).1 ▸ hincumbent
    | cons node rest =>
      rw [explore, run_bind_of_ok (run_modify s _)] at hrun
      set s' := { s with visited := s.visited + 1 }
      obtain ⟨u, hrelax, -⟩ := relax_run_eq (b := b) node.rows s'
      rw [run_bind_of_ok (attempt_run _ s'), hrelax] at hrun
      cases hr : (b.relaxed node.rows s'.offered).1 with
      | error f =>
        rw [hr] at hrun
        dsimp only at hrun
        split at hrun
        · exact ih hincumbent hrun
        · cases (Prod.mk.inj hrun).1
      | ok found =>
        rw [hr] at hrun
        dsimp only at hrun
        split at hrun
        · exact ih hincumbent hrun
        · obtain ⟨chosen, w, hselect, hrest⟩ := ok_of_run_bind hrun
          cases chosen with
          | some branches => exact ih hincumbent hrest
          | none =>
            have hfound : b.Found found := ⟨⟨_, _, hr⟩, fractional?_of_selectBranch hselect⟩
            have hsome : ∀ best, some found = some best → b.Found best :=
              fun best heq => Option.some.inj heq ▸ hfound
            dsimp only at hrest
            split at hrest
            · exact Except.ok.inj (Prod.mk.inj hrest).1 ▸ hsome
            · exact ih hsome hrest

/-- A search leaves an incumbent that was found, or none. -/
theorem run_found {s t : SearchState} {e : Exploration} (hrun : b.run.run s = (.ok e, t)) :
    ∀ best, e.incumbent = some best → b.Found best := by
  unfold run at hrun
  obtain ⟨u, hrelax, -⟩ := relax_run_eq (b := b) [] s
  obtain ⟨root, w, hroot, hrest⟩ := ok_of_run_bind hrun
  obtain ⟨hr, rfl⟩ := Prod.mk.inj (hrelax.symm.trans hroot)
  cases hneeds : b.needsIntegrality with
  | false =>
    rw [hneeds] at hrest
    intro best hbest
    obtain rfl := Except.ok.inj (Prod.mk.inj hrest).1
    obtain rfl := Option.some.inj hbest
    refine ⟨⟨_, _, hr⟩, ?_⟩
    unfold needsIntegrality at hneeds
    rw [Bool.not_eq_false', Bool.and_eq_true, List.isEmpty_iff, List.isEmpty_iff] at hneeds
    rw [fractional?, hneeds.1, hneeds.2]
    rfl
  | true =>
    rw [hneeds, if_pos rfl] at hrest
    obtain ⟨chosen, w', hselect, hrest⟩ := ok_of_run_bind hrest
    cases chosen with
    | none =>
      intro best hbest
      obtain rfl := Except.ok.inj (Prod.mk.inj hrest).1
      obtain rfl := Option.some.inj hbest
      exact ⟨⟨_, _, hr⟩, fractional?_of_selectBranch hselect⟩
    | some branches =>
      dsimp only at hrest
      rw [run_bind_of_ok (run_get w')] at hrest
      exact explore_found _ (fun best heq => by cases heq) hrest

end Incumbents

/-! ## Solutions of relaxations -/

section Solutions

/-- A solution of a relaxation is read off a feasible point of its equations. -/
theorem exists_of_relaxed (hfair : b.options.tieBreak.Fair) (h : (b.relaxed extra offered).1 = .ok found) :
    ∃ e x cost, b.equations extra = .ok e ∧ e.Feasible x ∧ found.ReadsOff e.columns x cost := by
  unfold relaxed at h
  cases hstart : b.start extra with
  | error fault =>
    rw [hstart] at h
    cases h
  | ok made =>
    obtain ⟨setting, state⟩ := made
    obtain ⟨e, he, hs, -, hobjective, -, htie⟩ := start_ok hstart
    rw [hstart] at h
    have hrows := he
    rw [equations, ← hobjective] at hrows
    obtain ⟨hx, hreads⟩ := Simplex.solve_reads (htie ▸ hfair) hrows hs offered (Prod.ext h rfl)
    exact ⟨e, _, _, he, hx, hreads⟩

/-- The parts of a found solution satisfy the standard form, strict comparators read as inclusive. -/
theorem Found.exists_parts (h : b.Found found) (hprepared : b.Prepared) (hfair : b.options.tieBreak.Fair) :
    (∀ name, name ∉ b.form.split → 0 ≤ found.value name) ∧ ∃ z, (∀ row ∈ b.form.rows, row.HoldsInclusive z) ∧
      ∀ name, (∀ y ∈ b.form.split, name ≠ positivePart y ∧ name ≠ negativePart y) →
        joinParts b.form.split z name = found.value name := by
  obtain ⟨extra, offered, hrelaxed⟩ := h.relaxed
  obtain ⟨e, x, cost, he, hx, hreads⟩ := exists_of_relaxed hfair hrelaxed
  obtain ⟨z, hgives, hjoin⟩ := Equations.exists_assignment he hreads
  refine ⟨fun name hname => Equations.value_nonneg he hx hreads hname, z, fun row hrow => ?_, hjoin⟩
  exact Equations.holdsInclusive_of_feasible he hx hgives
    (List.mem_append_left _ (List.mem_append_left _ hrow)) (hprepared.rows_nodup row hrow)

/-- What is found is 0 or 1 for every binary, and an integer for every integer. -/
theorem Found.values (h : b.Found found) : b.IntegralAt found.value := fractional?_eq_none_iff.mp h.integral

end Solutions

/-! ## Solutions of searches -/

section Results

/-- The pieces of a search on a problem. -/
theorem prepare_ok (h : prepare problem options = .ok b) :
    problem.standardForm true = .ok b.form ∧ b.binary = firstOccurrences (problem.binary ++ b.form.condition) ∧
      b.integer = (firstOccurrences problem.integer).filter fun name => !b.binary.contains name := by
  unfold prepare at h
  split at h
  · cases h
  · obtain ⟨form, hform, hpure⟩ := ok_of_bind h
    obtain rfl := Except.ok.inj hpure
    exact ⟨hform, rfl, rfl⟩

/-- What is found satisfies the problem, and so it does without the conditions. -/
theorem Found.allows (h : b.Found found) (hp : problem.Keyed)
    (hpositive : ∀ c ∈ problem.constraints, c.isPositive = true) (hprepare : prepare problem options = .ok b)
    (hunsplit : Unsplit b.form.split problem.callers) (hfair : options.tieBreak.Fair) :
    problem.Allows (found.without b.form.condition).value := by
  obtain ⟨hprepared, -, rfl⟩ := prepared_of_prepare hp hprepare
  obtain ⟨hform, hbinary, hinteger⟩ := prepare_ok hprepare
  obtain ⟨derived, hmade⟩ := exists_madeOf hform
  obtain ⟨hbits, hints⟩ := h.values
  obtain ⟨hnn, z, hrows, hjoin⟩ := h.exists_parts hprepared hfair
  have hbinary' : ∀ {name}, name ∈ problem.binary ++ b.form.condition → name ∈ b.binary :=
    fun hname => hbinary ▸ mem_firstOccurrences.mpr hname
  refine ⟨?_, ?_, ?_, ?_⟩
  · intro name hname
    rw [Solution.value_without]
    split
    · exact le_rfl
    · exact hnn name fun hsplit => hname (hmade.mem_of_split hsplit).1
  · intro name hname
    rw [Solution.value_without]
    split
    · exact Or.inl rfl
    · exact hbits name (hbinary' (List.mem_append_left _ hname))
  · intro name hname
    rw [Solution.value_without]
    split
    · rfl
    · by_cases hbin : name ∈ b.binary
      · exact den_of_isBit (hbits name hbin)
      · refine hints name ?_
        rw [hinteger, List.mem_filter, mem_firstOccurrences]
        exact ⟨hname, by simpa using hbin⟩
  · refine hmade.holdsInclusive hp.constraints hpositive ?_ ?_ hrows ?_
    · exact fun c hc row hrow name hname => hunsplit name (Problem.mem_callers_of_operand hc hrow hname)
    · intro name hname
      have hno : ∀ y ∈ b.form.split, name ≠ positivePart y ∧ name ≠ negativePart y := by
        rcases List.mem_append.mp hname with hbin | hcond
        · exact hunsplit name (Problem.mem_callers_of_binary hbin)
        · exact hmade.condition_ne_part hp.constraints hcond
      have hbit := hbits name (hbinary' hname)
      rwa [← hjoin name hno, joinParts_of_not_mem (hprepared.not_split name (hbinary' hname))] at hbit
    · intro c hc row hrow name hname
      have hkept : name ∉ b.form.condition := fun hcond =>
        hmade.not_reserved_of_operand hc hrow hname ((hmade.tidy hp.constraints).2 name hcond)
      rw [Solution.value_without, if_neg hkept]
      exact hjoin name (hunsplit name (Problem.mem_callers_of_operand hc hrow hname))

/-- Maximize `2 n + u` for an integer `n`, a binary `b` and a `u` of either sign, with an implication, a
conjunction and a disjunction. -/
def mixedProblem : Problem where
  goal := .maximize
  objective := [("n", 2), ("u", 1)]
  constraints := [.plain ⟨[("n", 2), ("u", 1)], .le, 5, none⟩,
    .implies ⟨[("b", 1)], .ge, 1, none⟩ ⟨[("u", 1)], .eq, 0, none⟩,
    .joined .and ⟨[("u", 1)], .ge, -1, none⟩ ⟨[("b", 1)], .ge, 0, none⟩,
    .joined .or ⟨[("u", 1)], .le, 1, none⟩ ⟨[("n", 1)], .le, 1, none⟩]
  binary := ["b"]
  integer := ["n"]
  unrestricted := ["u"]

/-- The incumbent's objective value after a search on a problem, and how the exploration ended. -/
def exploration? (problem : Problem) (options : SearchOptions) : Option (Except Fault (Option Rat × Ending)) :=
  match prepare problem options with
  | .ok b => some ((b.run.run {}).1.map fun e => (e.incumbent.map Solution.objective, e.ending))
  | .error _ => none

theorem exists_of_exploration? {q : Rat} {ending : Ending}
    (h : exploration? problem options = some (.ok (some q, ending))) :
    ∃ b e best u, prepare problem options = .ok b ∧ b.run.run {} = (.ok e, u) ∧ e.incumbent = some best ∧
      best.objective = q ∧ e.ending = ending := by
  unfold exploration? at h
  split at h
  · rename_i b hb
    cases hrun : (b.run.run {}).1 with
    | error f =>
      rw [hrun] at h
      cases h
    | ok e =>
      rw [hrun] at h
      obtain ⟨hbest, hend⟩ := Prod.mk.inj (Except.ok.inj (Option.some.inj h))
      obtain ⟨best, hincumbent, hobjective⟩ := Option.map_eq_some_iff.mp hbest
      exact ⟨b, e, best, _, hb, Prod.ext hrun rfl, hincumbent, hobjective, hend⟩
  · cases h

/-- Whatever the budget and the threshold, a solution that a search returns respects the declarations of the
problem and satisfies its constraints, when rows that must hold are read as inclusive, provided that no
constraint negates a row and no name of the caller is that of a part. -/
theorem solve_feasible (hp : problem.Keyed) (hpositive : ∀ c ∈ problem.constraints, c.isPositive = true)
    (hprepare : prepare problem options = .ok b) (hunsplit : Unsplit b.form.split problem.callers)
    (hfair : options.tieBreak.Fair) {s t : SearchState} (hsolve : b.solve.run s = (.ok sol, t)) :
    problem.Allows sol.value := by
  obtain ⟨e, u, hrun, hrest⟩ := ok_of_run_bind hsolve
  cases hincumbent : e.incumbent with
  | none =>
    rw [hincumbent] at hrest
    cases (Prod.mk.inj hrest).1
  | some best =>
    rw [hincumbent] at hrest
    obtain rfl := Except.ok.inj (Prod.mk.inj hrest).1
    exact (run_found hrun best hincumbent).allows hp hpositive hprepare hunsplit hfair

/-- A search that is cut off still returns a solution that satisfies the problem. -/
theorem solve_feasible_sample :
    ∃ b e u sol, prepare mixedProblem { tieBreak := .first, maxBranches := 1 } = .ok b ∧
      b.run.run {} = (.ok e, u) ∧ e.ending = .cutOff ∧ b.solve.run {} = (.ok sol, u) ∧ sol.objective = 5 ∧
      mixedProblem.Allows sol.value := by
  have hcut : exploration? mixedProblem { tieBreak := .first, maxBranches := 1 } =
      some (.ok (some 5, .cutOff)) := by
    decide +kernel
  obtain ⟨b, e, best, u, hprepare, hrun, hincumbent, hobjective, hend⟩ := exists_of_exploration? hcut
  have hsolve : b.solve.run {} = (.ok (best.without b.form.condition), u) := by
    unfold solve
    rw [run_bind_of_ok hrun, hincumbent]
    rfl
  have hkeyed : mixedProblem.Keyed := ⟨by decide, by decide⟩
  obtain ⟨derived, hmade⟩ := exists_madeOf (prepare_ok hprepare).1
  have hunsplit : Unsplit b.form.split mixedProblem.callers := by
    rw [hmade.split_eq]
    decide
  exact ⟨b, e, u, _, hprepare, hrun, hend, hsolve, hobjective,
    solve_feasible hkeyed (by decide) hprepare hunsplit Simplex.TieBreak.fair_first hsolve⟩

end Results

end Search

end ExactLP
