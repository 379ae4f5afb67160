import ExactLP.Proofs.Search.Mirror
import ExactLP.Proofs.Search.Threshold

/-!
# Proofs.Search.Budget — searches with different budgets

The budget is looked at between two nodes and nowhere else.  A search with more budget therefore visits the nodes of
one with less and then, where that one is cut off, some more; and a turn keeps the incumbent or replaces it by a
better one.

* `turn`, `explore_succ`: an exploration, one node at a time.
* `Improves`, `explore_improves`: the incumbent only gets better.
* `Extends`, `explore_extends`: an exploration with more budget.
* `solve_budgets`: two searches compared.
-/

namespace ExactLP.Search

variable {b : Search} {found : Solution} {incumbent incumbent' incumbent'' : Option Solution} {problem : Problem}
  {options : SearchOptions} {few many : Int} {n m : Nat} {α : Type}

/-! ## One node at a time -/

section Turns

/-- What exploring a node comes to. -/
inductive Turn where
  /-- These nodes are open now, with this incumbent. -/
  | on (nodes : List Node) (incumbent : Option Solution)
  /-- The incumbent reached the target. -/
  | reached (incumbent : Solution)

/-- Explores a node, before others that are open. -/
def turn (b : Search) (root : Rat) (node : Node) (rest : List Node) (incumbent : Option Solution) : Searching Turn := do
  modify fun s => { s with visited := s.visited + 1 }
  match ← attempt (b.relax node.rows) with
  | .error fault =>
    if fault.kind = .refused .infeasible then return .on rest incumbent else throw fault
  | .ok found =>
    if incumbent.any fun best => !b.isBetter found.objective best.objective then
      return .on rest incumbent
    else
      match ← b.selectBranch found with
      | some branches => return .on (node.branch branches ++ rest) incumbent
      | none => if b.reachedTarget root found.objective then return .reached found else return .on rest (some found)

/-- An exploration with budget left takes a turn and goes on. -/
theorem explore_succ (b : Search) (root : Rat) (budget : Nat) (node : Node) (rest : List Node)
    (incumbent : Option Solution) :
    b.explore root (budget + 1) (node :: rest) incumbent = (do
      match ← b.turn root node rest incumbent with
      | .on nodes incumbent => b.explore root budget nodes incumbent
      | .reached best => return ⟨some best, .reached⟩) := by
  rw [explore, turn, bind_assoc]
  refine bind_congr fun _ => ?_
  rw [bind_assoc]
  refine bind_congr fun outcome => ?_
  cases outcome with
  | error fault =>
    dsimp only
    split
    · rw [pure_bind]
    · rfl
  | ok found =>
    dsimp only
    split
    · rw [pure_bind]
    · rw [bind_assoc]
      refine bind_congr fun branches => ?_
      cases branches with
      | some branches => rw [pure_bind]
      | none =>
        dsimp only
        split
        · rw [pure_bind]
        · rw [pure_bind]

end Turns

/-! ## Incumbents only get better -/

section Incumbents

/-- An incumbent is kept, or gives way to one that is no worse. -/
def Improves (b : Search) (incumbent incumbent' : Option Solution) : Prop :=
  ∀ best, incumbent = some best → ∃ best', incumbent' = some best' ∧
    ¬b.problem.goal.Better best.objective best'.objective

theorem Improves.refl (b : Search) (incumbent : Option Solution) : b.Improves incumbent incumbent := by
  intro best hbest
  exact ⟨best, hbest, Goal.not_better_iff.mpr le_rfl⟩

theorem Improves.trans (h : b.Improves incumbent incumbent') (h' : b.Improves incumbent' incumbent'') :
    b.Improves incumbent incumbent'' := by
  intro best hbest
  obtain ⟨best', hbest', hle⟩ := h best hbest
  obtain ⟨best'', hbest'', hle'⟩ := h' best' hbest'
  exact ⟨best'', hbest'', Goal.not_better_trans hle hle'⟩

/-- A solution that is not discarded for the incumbent is better. -/
theorem improves_of_any (h : ¬(incumbent.any fun best => !b.isBetter found.objective best.objective) = true) :
    b.Improves incumbent (some found) := by
  rintro best rfl
  refine ⟨found, rfl, Goal.not_better_of_better (isBetter_iff.mp ?_)⟩
  simpa using h

/-- The incumbent that a turn leaves. -/
def Turn.leaves : Turn → Option Solution
  | on _ best => best
  | reached best => some best

theorem turn_improves (b : Search) (root : Rat) (node : Node) (rest : List Node) (incumbent : Option Solution) :
    Ensures (b.turn root node rest incumbent) fun _ r _ => b.Improves incumbent r.leaves := by
  intro s r t hrun
  unfold turn at hrun
  rw [run_bind_of_ok (run_modify s _), run_bind_of_ok (attempt_run _ _)] at hrun
  have hkept : ∀ {nodes : List Node} {u : SearchState},
      (pure (.on nodes incumbent) : Searching Turn).run u = (.ok r, t) → b.Improves incumbent r.leaves := by
    intro nodes u hret
    obtain rfl := Except.ok.inj (Prod.mk.inj hret).1
    exact .refl b incumbent
  split at hrun
  · split at hrun
    · exact hkept hrun
    · cases (Prod.mk.inj hrun).1
  · split at hrun
    · exact hkept hrun
    · rename_i found _ hany
      obtain ⟨branches, u, -, hrest⟩ := ok_of_run_bind hrun
      cases branches with
      | some branches => exact hkept hrest
      | none =>
        dsimp only at hrest
        split at hrest
        · obtain rfl := Except.ok.inj (Prod.mk.inj hrest).1
          exact improves_of_any hany
        · obtain rfl := Except.ok.inj (Prod.mk.inj hrest).1
          exact improves_of_any hany

/-- So does a whole exploration. -/
theorem explore_improves (b : Search) (root : Rat) (budget : Nat) (nodes : List Node) (incumbent : Option Solution) :
    Ensures (b.explore root budget nodes incumbent) fun _ e _ => b.Improves incumbent e.incumbent := by
  induction budget generalizing nodes incumbent with
  | zero =>
    cases nodes with
    | nil => exact ensures_pure fun _ => .refl b incumbent
    | cons node rest => exact ensures_pure fun _ => .refl b incumbent
  | succ budget ih =>
    cases nodes with
    | nil => exact ensures_pure fun _ => .refl b incumbent
    | cons node rest =>
      rw [explore_succ]
      intro s e t hrun
      obtain ⟨r, u, hturn, hrest⟩ := ok_of_run_bind hrun
      have hfirst := turn_improves b root node rest incumbent s r u hturn
      cases r with
      | on nodes incumbent' => exact hfirst.trans (ih nodes incumbent' u e t hrest)
      | reached best =>
        obtain rfl := Except.ok.inj (Prod.mk.inj hrest).1
        exact hfirst

end Incumbents

/-! ## Explorations with more budget -/

section More

/-- From every state `x` is cut off with an incumbent that what `y` finds improves, or `x` is not cut off and `y` does
what it does. -/
def Extends (b : Search) (x y : Searching Exploration) : Prop := ∀ s,
  (∃ e t, x.run s = (.ok e, t) ∧ e.ending = .cutOff ∧
      ∀ e' u, y.run s = (.ok e', u) → b.Improves e.incumbent e'.incumbent) ∨
    (∀ e t, x.run s = (.ok e, t) → e.ending ≠ .cutOff) ∧ y.run s = x.run s

theorem extends_pure {e : Exploration} (h : e.ending ≠ .cutOff) : b.Extends (pure e) (pure e) := by
  refine fun s => Or.inr ⟨?_, rfl⟩
  intro e' t hrun
  obtain rfl := Except.ok.inj (Prod.mk.inj hrun).1
  exact h

theorem extends_bind (x : Searching α) {f g : α → Searching Exploration} (h : ∀ a, b.Extends (f a) (g a)) :
    b.Extends (x >>= f) (x >>= g) := by
  intro s
  rcases hrun : x.run s with ⟨fault | a, t⟩
  · rw [run_bind_of_error hrun, run_bind_of_error hrun]
    refine Or.inr ⟨?_, rfl⟩
    intro e u heq
    cases (Prod.mk.inj heq).1
  · rw [run_bind_of_ok hrun, run_bind_of_ok hrun]
    exact h a t

theorem explore_extends (b : Search) (root : Rat) (hnm : n ≤ m) (nodes : List Node) (incumbent : Option Solution) :
    b.Extends (b.explore root n nodes incumbent) (b.explore root m nodes incumbent) := by
  induction n generalizing m nodes incumbent with
  | zero =>
    cases nodes with
    | nil =>
      cases m with
      | zero => exact extends_pure nofun
      | succ m => exact extends_pure nofun
    | cons node rest =>
      intro s
      exact Or.inl ⟨_, s, rfl, rfl, fun e u hrun => explore_improves b root m _ incumbent s e u hrun⟩
  | succ n ih =>
    obtain ⟨more, rfl⟩ := Nat.exists_eq_add_of_le' hnm
    cases nodes with
    | nil => exact extends_pure nofun
    | cons node rest =>
      rw [← Nat.add_assoc, explore_succ, explore_succ]
      refine extends_bind _ fun r => ?_
      cases r with
      | on nodes incumbent' => exact ih (Nat.le_add_left n more) nodes incumbent'
      | reached best => exact extends_pure nofun

end More

/-! ## Searches with different budgets -/

section Budgets

/-- The search with another budget. -/
def withBudget (b : Search) (budget : Int) : Search := { b with options := { b.options with maxBranches := budget } }

/-- A turn does not look at the budget of the search. -/
theorem turn_withBudget (b : Search) (budget : Int) : (b.withBudget budget).turn = b.turn := rfl

theorem explore_withBudget (b : Search) (budget : Int) (root : Rat) (n : Nat) (nodes : List Node)
    (incumbent : Option Solution) :
    (b.withBudget budget).explore root n nodes incumbent = b.explore root n nodes incumbent := by
  induction n generalizing nodes incumbent with
  | zero => cases nodes <;> rfl
  | succ n ih =>
    cases nodes with
    | nil => rfl
    | cons node rest =>
      rw [explore_succ, explore_succ, turn_withBudget]
      refine bind_congr fun r => ?_
      cases r with
      | on nodes incumbent' => exact ih nodes incumbent'
      | reached best => rfl

theorem run_extends (b : Search) (hle : few ≤ many) : b.Extends (b.withBudget few).run (b.withBudget many).run := by
  have hbelow : ∀ root branches, b.Extends ((b.withBudget few).below root branches)
      ((b.withBudget many).below root branches) := by
    intro root branches
    cases branches with
    | none => exact extends_pure nofun
    | some branches =>
      refine extends_bind get fun s => ?_
      rw [explore_withBudget, explore_withBudget]
      exact explore_extends b root.objective (Nat.sub_le_sub_right (Int.toNat_le_toNat hle) s.visited) _ none
  rw [run_eq_below, run_eq_below]
  refine extends_bind (b.relax []) fun root => ?_
  show b.Extends (if b.needsIntegrality then _ else _) (if b.needsIntegrality then _ else _)
  split
  · exact extends_bind (b.selectBranch root) fun branches => hbelow root branches
  · exact hbelow root none

/-- A budget that is not negative does not matter for making a problem ready. -/
theorem prepare_budget (problem : Problem) (options : SearchOptions) {budget : Int} (h : 0 ≤ budget) :
    prepare problem { options with maxBranches := budget } =
      (prepare problem { options with maxBranches := 0 }).map fun b => b.withBudget budget := by
  unfold prepare
  rw [if_neg (not_lt.mpr h), if_neg (lt_irrefl 0)]
  cases problem.standardForm true <;> rfl

theorem problem_of_prepare (h : prepare problem options = .ok b) : b.problem = problem := by
  unfold prepare at h
  split at h
  · cases h
  · obtain ⟨form, -, hpure⟩ := ok_of_bind h
    obtain rfl := Except.ok.inj hpure
    rfl

/-- A search with the larger of two budgets finds nothing worse; and where the smaller budget does not cut the search
off, both do the same.  A negative number is no budget: `prepare` refuses it. -/
theorem solve_budgets (problem : Problem) (options : SearchOptions) (hfew : 0 ≤ few) (hle : few ≤ many) :
    (∃ f, prepare problem { options with maxBranches := few } = .error f ∧
      prepare problem { options with maxBranches := many } = .error f) ∨
    ∃ b b', prepare problem { options with maxBranches := few } = .ok b ∧
      prepare problem { options with maxBranches := many } = .ok b' ∧ ∀ s,
        (∀ sol t sol' t', b.solve.run s = (.ok sol, t) → b'.solve.run s = (.ok sol', t') →
          ¬problem.goal.Better sol.objective sol'.objective) ∧
        ((∀ e t, b.run.run s = (.ok e, t) → e.ending ≠ .cutOff) → b'.solve.run s = b.solve.run s) := by
  rw [prepare_budget problem options hfew, prepare_budget problem options (hfew.trans hle)]
  cases hprepare : prepare problem { options with maxBranches := 0 } with
  | error f => exact Or.inl ⟨f, rfl, rfl⟩
  | ok b =>
    refine Or.inr ⟨b.withBudget few, b.withBudget many, rfl, rfl, fun s => ?_⟩
    have hproblem := problem_of_prepare hprepare
    have hsame : (b.withBudget many).run.run s = (b.withBudget few).run.run s →
        (b.withBudget many).solve.run s = (b.withBudget few).solve.run s := by
      intro hrun
      unfold solve
      rw [run_bind, run_bind, hrun]
      rfl
    rcases run_extends b hle s with ⟨e, u, hrun, hcut, himproves⟩ | ⟨-, hrun⟩
    · refine ⟨?_, fun hno => absurd hcut (hno e u hrun)⟩
      intro sol t sol' t' hsolve hsolve'
      obtain ⟨e₁, u₁, best, hrun₁, hbest, rfl⟩ := ok_of_solve_run hsolve
      obtain ⟨e₂, u₂, best', hrun₂, hbest', rfl⟩ := ok_of_solve_run hsolve'
      obtain rfl := Except.ok.inj (Prod.mk.inj (hrun₁.symm.trans hrun)).1
      obtain ⟨other, hother, hle⟩ := himproves e₂ u₂ hrun₂ best hbest
      obtain rfl := Option.some.inj (hother.symm.trans hbest')
      rw [← hproblem]
      exact hle
    · refine ⟨?_, fun _ => hsame hrun⟩
      intro sol t sol' t' hsolve hsolve'
      obtain rfl := Except.ok.inj (Prod.mk.inj (hsolve'.symm.trans ((hsame hrun).trans hsolve))).1
      exact Goal.not_better_iff.mpr le_rfl

/-- Without its threshold the knapsack takes 4 nodes: after one of them its value is 18, and 20 in the end.  With the
threshold one node is enough. -/
theorem solve_budgets_samples :
    (∃ b b' sol t sol' t',
      prepare { sampleKnapsack with threshold := none } { tieBreak := .first, maxBranches := 1 } = .ok b ∧
      prepare { sampleKnapsack with threshold := none } { tieBreak := .first, maxBranches := 200 } = .ok b' ∧
      ((0 : Int) ≤ 1 ∧ (1 : Int) ≤ 200) ∧ b.solve.run {} = (.ok sol, t) ∧ b'.solve.run {} = (.ok sol', t') ∧
      sol.objective = 18 ∧ sol'.objective = 20 ∧ ¬Goal.maximize.Better sol.objective sol'.objective) ∧
    ∃ b b' e u, prepare sampleKnapsack { tieBreak := .first, maxBranches := 1 } = .ok b ∧
      prepare sampleKnapsack { tieBreak := .first, maxBranches := 200 } = .ok b' ∧
      b.run.run {} = (.ok e, u) ∧ e.ending = .reached ∧ b'.solve.run {} = b.solve.run {} := by
  have hone : outcome? { sampleKnapsack with threshold := none } { tieBreak := .first, maxBranches := 1 } =
      some (.ok 18, .ok .cutOff) := by
    decide +kernel
  have hall : outcome? { sampleKnapsack with threshold := none } { tieBreak := .first, maxBranches := 200 } =
      some (.ok 20, .ok .exhausted) := by
    decide +kernel
  have hstop : outcome? sampleKnapsack { tieBreak := .first, maxBranches := 1 } = some (.ok 18, .ok .reached) := by
    decide +kernel
  have hfew : (0 : Int) ≤ 1 := by decide
  have hle : (1 : Int) ≤ 200 := by decide
  constructor
  · obtain ⟨b, r, t, -, -, hprepare, hsolve, hvalue, -⟩ := exists_of_outcome? hone
    obtain ⟨b', r', t', -, -, hprepare', hsolve', hvalue', -⟩ := exists_of_outcome? hall
    cases r with
    | error f => cases hvalue
    | ok sol =>
      cases r' with
      | error f => cases hvalue'
      | ok sol' =>
        rcases solve_budgets { sampleKnapsack with threshold := none } { tieBreak := .first } hfew hle with
          ⟨f, hfault, -⟩ | ⟨c, c', hc, hc', hboth⟩
        · cases hfault.symm.trans hprepare
        · obtain rfl := Except.ok.inj (hc.symm.trans hprepare)
          obtain rfl := Except.ok.inj (hc'.symm.trans hprepare')
          exact ⟨c, c', sol, t, sol', t', hprepare, hprepare', ⟨hfew, hle⟩, hsolve, hsolve', Except.ok.inj hvalue,
            Except.ok.inj hvalue', (hboth {}).1 sol t sol' t' hsolve hsolve'⟩
  · obtain ⟨b, -, -, e, u, hprepare, -, -, hrun, hend⟩ := exists_of_outcome? hstop
    rcases solve_budgets sampleKnapsack { tieBreak := .first } hfew hle with
      ⟨f, hfault, -⟩ | ⟨c, c', hc, hc', hboth⟩
    · cases hfault.symm.trans hprepare
    · obtain rfl := Except.ok.inj (hc.symm.trans hprepare)
      refine ⟨c, c', e, u, hprepare, hc', hrun, hend, (hboth {}).2 ?_⟩
      intro e' u' hrun'
      obtain rfl := Except.ok.inj (Prod.mk.inj (hrun.symm.trans hrun')).1
      rw [hend]
      decide

end Budgets

end ExactLP.Search
