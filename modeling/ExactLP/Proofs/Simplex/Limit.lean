import ExactLP.Proofs.Simplex.Mirror
import ExactLP.Proofs.Simplex.Termination

/-!
# Proofs.Simplex.Limit — runs with different limits on their pivots

The limit is looked at once an improving column is known, and before a row is chosen for it.  A run with a
smaller limit is therefore the run with the larger one or is refused, and it is refused exactly when some phase
of the larger run makes more pivots than the smaller limit allows.

* `ensures_pivot`, `ensures_run`: what a pivot notes, and how many pivots a run notes.
* `Rests`, `Wants`, `rests_or_wants`: a step finds an optimum whatever its leave, or it needs leave to pivot.
* `run_of_few`: an optimum that takes few pivots is found with leave for as many.
* `Curtails`: a computation does what another one does, or is refused for the limit; `curtails_solve`.
* `solve_limits`: two runs compared.
-/

namespace ExactLP.Simplex

variable {setting : Setting} {s t p : State} {sol : Solution} {α β : Type} {a b n m few : Nat} {j : Nat}

/-! ## Choices never fail -/

section Choosing

theorem entering_run (setting : Setting) (s : State) :
    ∃ found o, (entering setting).run s = (.ok found, { s with offered := o }) := by
  unfold entering
  rw [run_bind_of_ok (run_get s)]
  cases s.improving with
  | nil => exact ⟨none, s.offered, rfl⟩
  | cons j rest =>
    dsimp only
    split
    · exact ⟨some j, s.offered, rfl⟩
    · exact ⟨_, _, run_bind_of_ok (choose_run setting s _)⟩

theorem leaving_run (setting : Setting) (j : Nat) (s : State) :
    ∃ found o, (leaving setting j).run s = (.ok found, { s with offered := o }) := by
  unfold leaving
  rw [run_bind_of_ok (run_get s)]
  rcases s.ratios j with _ | ⟨⟨ratio, i⟩, rest⟩
  · exact ⟨none, s.offered, rfl⟩
  · dsimp only
    split
    · exact ⟨_, s.offered, rfl⟩
    · exact ⟨_, _, run_bind_of_ok (choose_run setting s _)⟩

end Choosing

/-! ## Pivots that are noted -/

section Notes

/-- The runs that go through leave the pivots noted so far. -/
def KeepsPivots (x : Step α) : Prop := Ensures x fun s _ t => t.pivots = s.pivots

theorem KeepsPivots.bind {x : Step α} {f : α → Step β} (h : KeepsPivots x) (hf : ∀ r, KeepsPivots (f r)) :
    KeepsPivots (x >>= f) := by
  intro s r t hrun
  obtain ⟨q, u, hfirst, hrest⟩ := ok_of_run_bind hrun
  exact (hf q u r t hrest).trans (h s q u hfirst)

theorem keepsPivots_onTableau (f : Grid → Except Fault Grid) : KeepsPivots (onTableau f) := by
  intro s r t hrun
  obtain ⟨_, _, hget, hrun⟩ := ok_of_run_bind hrun
  cases hget
  obtain ⟨g, _, hlift, hset⟩ := ok_of_run_bind hrun
  cases (Prod.mk.inj hlift).2
  rw [← (Prod.mk.inj hset).2]

theorem keepsPivots_setBasis (row : Int) (entry : Option Int) :
    KeepsPivots (onState fun s => s.setBasis row entry) := by
  intro s r t hrun
  obtain ⟨_, _, hget, hrun⟩ := ok_of_run_bind hrun
  cases hget
  obtain ⟨v, _, hlift, hset⟩ := ok_of_run_bind hrun
  cases (Prod.mk.inj hlift).2
  have hv : s.setBasis row entry = .ok v := (Prod.mk.inj hlift).1
  rw [← (Prod.mk.inj hset).2]
  unfold State.setBasis at hv
  split at hv
  · rw [← Except.ok.inj hv]
  · cases hv

theorem KeepsPivots.forM {f : Nat → Step Unit} (h : ∀ i, KeepsPivots (f i)) (rows : List Nat) :
    KeepsPivots (rows.forM f) := by
  induction rows with
  | nil => exact ensures_pure fun _ => rfl
  | cons i rest ih => exact (h i).bind fun _ => ih

theorem ensures_pivot (row column : Int) :
    Ensures (pivot row column) fun s _ t => t.pivots = s.pivots ++ [(row, column)] := by
  intro s r t hrun
  unfold pivot at hrun
  obtain ⟨_, s₁, hdivide, hrun⟩ := ok_of_run_bind hrun
  obtain ⟨_, _, hget, hrun⟩ := ok_of_run_bind hrun
  cases hget
  obtain ⟨_, s₂, hcancel, hrun⟩ := ok_of_run_bind hrun
  obtain ⟨_, s₃, hbasis, hrun⟩ := ok_of_run_bind hrun
  obtain ⟨_, _, hnote, hrun⟩ := ok_of_run_bind hrun
  cases hnote
  have hbefore : s₃.pivots = s.pivots := by
    refine (keepsPivots_setBasis row (some column) _ _ _ hbasis).trans ?_
    refine (KeepsPivots.forM (fun i => ?_) _ _ _ _ hcancel).trans (keepsPivots_onTableau _ _ _ _ hdivide)
    split
    · exact ensures_pure fun _ => rfl
    · exact keepsPivots_onTableau _
  obtain ⟨_, _, hget, hrun⟩ := ok_of_run_bind hrun
  cases hget
  obtain ⟨_, _, hcolumn, hrun⟩ := ok_of_run_bind hrun
  cases (Prod.mk.inj hcolumn).2
  rw [← hbefore]
  split at hrun
  · cases (Prod.mk.inj hrun).1
  · rw [← (Prod.mk.inj hrun).2]

end Notes

/-! ## One step -/

section Step

theorem iterate_of_none (setting : Setting) {u : State} (h : (entering setting).run s.latched = (.ok none, u))
    (mayPivot : Bool) : (iterate setting mayPivot).run s = (.ok .optimal, u) := by
  unfold iterate
  rw [run_bind_of_ok (State.latchDegeneracy_run s), run_bind_of_ok h]
  rfl

/-- A step with a column to enter and without leave to pivot is refused. -/
theorem iterate_false_of_some (setting : Setting) {u : State}
    (h : (entering setting).run s.latched = (.ok (some j), u)) :
    (iterate setting false).run s =
      (.error (.refusing .iterationLimit s!"phase {u.phase.number} after {setting.limit} pivots" none), u) := by
  unfold iterate
  rw [run_bind_of_ok (State.latchDegeneracy_run s), run_bind_of_ok h]
  rfl

/-- A step with a column to enter and with leave to pivot finds that no row bounds the column, or pivots. -/
theorem iterate_true_of_some (setting : Setting) {u : State}
    (h : (entering setting).run s.latched = (.ok (some j), u)) :
    ∃ o, (iterate setting true).run s = (.ok .unbounded, { u with offered := o }) ∨
      ∃ i : Nat, (iterate setting true).run s =
        (do pivot i j; return .intermediate : Step Progress).run { u with offered := o } := by
  unfold iterate
  rw [run_bind_of_ok (State.latchDegeneracy_run s), run_bind_of_ok h]
  obtain ⟨found, o, hleaving⟩ := leaving_run setting j u
  refine ⟨o, ?_⟩
  cases found with
  | none => exact Or.inl ((run_bind_of_ok hleaving).trans rfl)
  | some i => exact Or.inr ⟨i, run_bind_of_ok hleaving⟩

/-- With leave to pivot the limit does not matter. -/
theorem iterate_true_limit (setting : Setting) (a b : Nat) :
    iterate { setting with limit := a } true = iterate { setting with limit := b } true := by
  have hentering : entering { setting with limit := a } = entering { setting with limit := b } := rfl
  have hleaving : leaving { setting with limit := a } = leaving { setting with limit := b } := rfl
  simp only [iterate, hentering, hleaving, Bool.not_true, Bool.false_eq_true, if_false]

/-- Whatever the limit and the leave to pivot, a step from `s` finds an optimum in `u`. -/
structure Rests (setting : Setting) (s u : State) : Prop where
  pivots_eq : u.pivots = s.pivots
  iterate_run : ∀ limit mayPivot, (iterate { setting with limit } mayPivot).run s = (.ok .optimal, u)

/-- Whatever the limit, a step from `s` is refused without leave to pivot, and with it notes a pivot unless the column
is unbounded. -/
structure Wants (setting : Setting) (s : State) : Prop where
  refused : ∀ limit, ∃ f u, (iterate { setting with limit } false).run s = (.error f, u) ∧
    f.kind = .refused .iterationLimit
  goes_on : ∀ limit r u, (iterate { setting with limit } true).run s = (.ok r, u) →
    (r = .unbounded ∧ u.pivots = s.pivots) ∨ (r = .intermediate ∧ u.pivots.length = s.pivots.length + 1)

theorem rests_or_wants (setting : Setting) (s : State) : (∃ u, Rests setting s u) ∨ Wants setting s := by
  obtain ⟨found, o, hentering⟩ := entering_run setting s.latched
  cases found with
  | none =>
    exact Or.inl ⟨{ s.latched with offered := o }, rfl, fun limit mayPivot =>
      iterate_of_none { setting with limit } hentering mayPivot⟩
  | some j =>
    refine Or.inr ⟨fun limit => ⟨_, _, iterate_false_of_some { setting with limit } hentering, rfl⟩, ?_⟩
    intro limit r u hrun
    obtain ⟨o', hstep⟩ := iterate_true_of_some { setting with limit } hentering
    rcases hstep with hunb | ⟨i, hpivot⟩
    · obtain ⟨hr, rfl⟩ := Prod.mk.inj (hunb.symm.trans hrun)
      exact Or.inl ⟨(Except.ok.inj hr).symm, rfl⟩
    · rw [hpivot] at hrun
      obtain ⟨_, v, hp, hret⟩ := ok_of_run_bind hrun
      obtain ⟨hr, rfl⟩ := Prod.mk.inj hret
      refine Or.inr ⟨(Except.ok.inj hr).symm, ?_⟩
      rw [ensures_pivot i j _ _ _ hp, List.length_append]
      rfl

end Step

/-! ## Runs -/

section Runs

/-- A run from a state where a step finds an optimum is that step. -/
theorem Rests.run {u : State} (h : Rests setting s u) (a n : Nat) :
    (Simplex.run { setting with limit := a } n).run s = (.ok .optimal, u) := by
  cases n with
  | zero => exact h.iterate_run a false
  | succ n => exact run_bind_of_ok (h.iterate_run a true)

/-- A run that goes through has found something, and it has noted at most as many pivots as its limit. -/
theorem ensures_run (setting : Setting) (limit : Nat) : Ensures (run setting limit) fun s r t =>
    r ≠ .intermediate ∧ s.pivots.length ≤ t.pivots.length ∧ t.pivots.length ≤ s.pivots.length + limit := by
  intro s r t hrun
  induction limit generalizing s with
  | zero =>
    rcases rests_or_wants setting s with ⟨u, hrests⟩ | hwants
    · obtain ⟨hr, rfl⟩ := Prod.mk.inj ((hrests.run setting.limit 0).symm.trans hrun)
      rw [← Except.ok.inj hr, hrests.pivots_eq]
      exact ⟨Progress.noConfusion, le_rfl, le_rfl⟩
    · obtain ⟨f, u, hlimit, -⟩ := hwants.refused setting.limit
      cases (Prod.mk.inj (hlimit.symm.trans hrun)).1
  | succ limit ih =>
    rcases rests_or_wants setting s with ⟨u, hrests⟩ | hwants
    · obtain ⟨hr, rfl⟩ := Prod.mk.inj ((hrests.run setting.limit (limit + 1)).symm.trans hrun)
      rw [← Except.ok.inj hr, hrests.pivots_eq]
      exact ⟨Progress.noConfusion, le_rfl, Nat.le_add_right _ _⟩
    · obtain ⟨found, u, hstep, hrest⟩ := ok_of_run_bind hrun
      rcases hwants.goes_on setting.limit found u hstep with ⟨rfl, hpivots⟩ | ⟨rfl, hpivots⟩
      · obtain ⟨hr, rfl⟩ := Prod.mk.inj hrest
        rw [← Except.ok.inj hr, hpivots]
        exact ⟨Progress.noConfusion, le_rfl, Nat.le_add_right _ _⟩
      · obtain ⟨hfound, hle, hge⟩ := ih u hrest
        exact ⟨hfound, by omega, by omega⟩

/-- An optimum that takes few pivots is found with leave for as many, whatever limit is named. -/
theorem run_of_few (hrun : (run { setting with limit := b } m).run s = (.ok .optimal, t))
    (hfew : t.pivots.length ≤ s.pivots.length + n) (a : Nat) :
    (run { setting with limit := a } n).run s = (.ok .optimal, t) := by
  induction m generalizing s n with
  | zero =>
    rcases rests_or_wants setting s with ⟨u, hrests⟩ | hwants
    · obtain rfl := (Prod.mk.inj ((hrests.run b 0).symm.trans hrun)).2
      exact hrests.run a n
    · obtain ⟨f, u, hlimit, -⟩ := hwants.refused b
      cases (Prod.mk.inj (hlimit.symm.trans hrun)).1
  | succ m ih =>
    rcases rests_or_wants setting s with ⟨u, hrests⟩ | hwants
    · obtain rfl := (Prod.mk.inj ((hrests.run b (m + 1)).symm.trans hrun)).2
      exact hrests.run a n
    · obtain ⟨found, u, hstep, hrest⟩ := ok_of_run_bind hrun
      rcases hwants.goes_on b found u hstep with ⟨rfl, -⟩ | ⟨rfl, hpivots⟩
      · cases (Prod.mk.inj hrest).1
      · obtain ⟨-, hle, -⟩ := ensures_run _ m u _ t hrest
        cases n with
        | zero => omega
        | succ n =>
          rw [iterate_true_limit setting b a] at hstep
          exact (run_bind_of_ok hstep).trans (ih hrest (by omega))

end Runs

/-! ## Curtailed computations -/

section Curtailed

/-- From every state `x` does what `y` does, or is refused for the limit. -/
def Curtails (x y : Step α) : Prop :=
  ∀ s, (∃ f t, x.run s = (.error f, t) ∧ f.kind = .refused .iterationLimit) ∨ y.run s = x.run s

theorem curtails_refl (x : Step α) : Curtails x x := fun _ => Or.inr rfl

theorem Curtails.bind {x y : Step α} {f g : α → Step β} (h : Curtails x y) (hf : ∀ r, Curtails (f r) (g r)) :
    Curtails (x >>= f) (y >>= g) := by
  intro s
  rcases h s with ⟨fault, t, hrun, hkind⟩ | heq
  · exact Or.inl ⟨fault, t, run_bind_of_error hrun, hkind⟩
  · rcases hrun : x.run s with ⟨e | r, t⟩
    · right
      rw [run_bind_of_error hrun, run_bind_of_error (heq.trans hrun)]
    · rw [run_bind_of_ok hrun, run_bind_of_ok (heq.trans hrun)]
      exact hf r t

theorem Curtails.get_bind {f g : State → Step α} (h : ∀ s, Curtails (f s) (g s)) :
    Curtails (get >>= f) (get >>= g) := fun s => h s s

theorem curtails_run (setting : Setting) (a b : Nat) (hle : n ≤ m) :
    Curtails (run { setting with limit := a } n) (run { setting with limit := b } m) := by
  induction n generalizing m with
  | zero =>
    intro s
    rcases rests_or_wants setting s with ⟨u, hrests⟩ | hwants
    · exact Or.inr ((hrests.run b m).trans (hrests.run a 0).symm)
    · exact Or.inl (hwants.refused a)
  | succ n ih =>
    obtain ⟨more, rfl⟩ := Nat.exists_eq_add_of_le' hle
    unfold run
    rw [iterate_true_limit setting b a]
    refine (curtails_refl _).bind fun found => ?_
    cases found with
    | intermediate => exact ih (Nat.le_add_left n more)
    | optimal => exact curtails_refl _
    | unbounded => exact curtails_refl _

variable (hle : a ≤ b)
include hle

theorem curtails_phaseOne (setting : Setting) :
    Curtails (phaseOne { setting with limit := a }) (phaseOne { setting with limit := b }) :=
  (curtails_refl startPhaseOne).bind fun _ => (curtails_run setting a b hle).bind fun _ => curtails_refl _

theorem curtails_lastPhase (setting : Setting) :
    Curtails (lastPhase { setting with limit := a }) (lastPhase { setting with limit := b }) :=
  (curtails_run setting a b hle).bind fun _ => curtails_refl _

theorem curtails_solve (setting : Setting) :
    Curtails (solve { setting with limit := a }) (solve { setting with limit := b }) := by
  rw [solve_eq_lastPhase, solve_eq_lastPhase]
  refine .get_bind fun s => ?_
  split
  · refine (curtails_phaseOne hle setting).bind fun _ => ?_
    exact (curtails_refl (transition setting)).bind fun _ => curtails_lastPhase hle setting
  · exact (curtails_refl _).bind fun _ => curtails_lastPhase hle setting

end Curtailed

/-! ## Whole runs -/

section Solving

/-- No phase of a run from `s` makes more than `few` pivots. -/
def PivotsWithin (setting : Setting) (few : Nat) (s : State) : Prop :=
  ∀ p r t, BeginsPhase setting s p → (run setting setting.limit).run p = (r, t) →
    t.pivots.length ≤ p.pivots.length + few

theorem solve_of_artificials (h : s.hasArtificials = true) : (solve setting).run s =
    (do phaseOne setting; transition setting; lastPhase setting : Step Solution).run s := by
  rw [solve_eq_lastPhase, run_bind_of_ok (run_get s), if_pos h]

theorem solve_of_no_artificials (h : s.hasArtificials = false) :
    (solve setting).run s = (lastPhase setting).run { s with phase := .two } := by
  rw [solve_eq_lastPhase, run_bind_of_ok (run_get s), if_neg (Bool.eq_false_iff.mp h)]
  exact run_bind_of_ok (run_modify s _)

theorem optimal_of_phaseOne {q : State} (hbegin : startPhaseOne.run s = (.ok ⟨⟩, p))
    (hrun : (phaseOne setting).run s = (.ok ⟨⟩, q)) :
    ∃ u, (run setting setting.limit).run p = (.ok .optimal, u) := by
  unfold phaseOne at hrun
  rw [run_bind_of_ok hbegin] at hrun
  obtain ⟨found, u, hfirst, hrest⟩ := ok_of_run_bind hrun
  cases found with
  | intermediate => exact absurd rfl (ensures_run setting _ p _ u hfirst).1
  | unbounded => cases (Prod.mk.inj hrest).1
  | optimal => exact ⟨u, hfirst⟩

theorem optimal_of_lastPhase (hrun : (lastPhase setting).run p = (.ok sol, t)) :
    ∃ u, (run setting setting.limit).run p = (.ok .optimal, u) := by
  obtain ⟨found, u, hfirst, hrest⟩ := ok_of_run_bind hrun
  cases found with
  | intermediate => exact absurd rfl (ensures_run setting _ p _ u hfirst).1
  | unbounded => cases (Prod.mk.inj hrest).1
  | optimal => exact ⟨u, hfirst⟩

/-- When a solution is returned, every phase has ended at an optimum. -/
theorem BeginsPhase.optimal (h : BeginsPhase setting s p) (hrun : (solve setting).run s = (.ok sol, t)) :
    ∃ u, (run setting setting.limit).run p = (.ok .optimal, u) := by
  cases h with
  | first hart hbegin =>
    rw [solve_of_artificials hart] at hrun
    obtain ⟨_, q, hone, -⟩ := ok_of_run_bind hrun
    exact optimal_of_phaseOne hbegin hone
  | second hart hone htwo =>
    rw [solve_of_artificials hart, run_bind_of_ok hone, run_bind_of_ok htwo] at hrun
    exact optimal_of_lastPhase hrun
  | only hno =>
    rw [solve_of_no_artificials hno] at hrun
    exact optimal_of_lastPhase hrun

/-- The phases of a run are those of a curtailed run that is not refused. -/
theorem BeginsPhase.of_larger (hle : a ≤ b) (h : BeginsPhase { setting with limit := b } s p)
    (hrun : (solve { setting with limit := a }).run s = (.ok sol, t)) :
    BeginsPhase { setting with limit := a } s p := by
  cases h with
  | first hart hbegin => exact .first hart hbegin
  | only hno => exact .only hno
  | @second _ q hart hone htwo =>
    rw [solve_of_artificials hart] at hrun
    obtain ⟨_, q', hone', -⟩ := ok_of_run_bind hrun
    rcases curtails_phaseOne hle setting s with ⟨f, u, herr, -⟩ | heq
    · cases (Prod.mk.inj (herr.symm.trans hone')).1
    · exact .second hart (heq.symm.trans hone) htwo

/-- Runs whose phases go alike go alike. -/
theorem solve_congr (h : ∀ p, BeginsPhase { setting with limit := b } s p →
      (run { setting with limit := a } a).run p = (run { setting with limit := b } b).run p) :
    (solve { setting with limit := a }).run s = (solve { setting with limit := b }).run s := by
  have hlast : ∀ p, BeginsPhase { setting with limit := b } s p →
      (lastPhase { setting with limit := a }).run p = (lastPhase { setting with limit := b }).run p := by
    intro p hp
    unfold lastPhase
    rw [run_bind, run_bind, h p hp]
  cases hart : s.hasArtificials with
  | false =>
    rw [solve_of_no_artificials hart, solve_of_no_artificials hart]
    exact hlast _ (.only hart)
  | true =>
    have hphaseOne : (phaseOne { setting with limit := a }).run s = (phaseOne { setting with limit := b }).run s := by
      unfold phaseOne
      rw [run_bind, run_bind]
      rcases hbegin : startPhaseOne.run s with ⟨f | _, p⟩
      · rfl
      · dsimp only
        rw [run_bind, run_bind, h p (.first hart hbegin)]
    rw [solve_of_artificials hart, solve_of_artificials hart, run_bind, run_bind, hphaseOne]
    rcases hone : (phaseOne { setting with limit := b }).run s with ⟨f | _, q⟩
    · rfl
    · dsimp only
      rw [run_bind, run_bind]
      rcases htwo : (transition { setting with limit := b }).run q with ⟨f | _, p⟩
      · rw [show (transition { setting with limit := a }).run q = _ from htwo]
      · rw [show (transition { setting with limit := a }).run q = _ from htwo]
        exact hlast p (.second hart hone htwo)

/-- A run with the smaller of two limits is refused for the limit or is the run with the larger one.  When that one
returns a solution, so does the smaller one exactly if its limit allows the pivots of each phase. -/
theorem solve_limits (setting : Setting) (s : State) (hle : a ≤ b) :
    ((∃ f t, (solve { setting with limit := a }).run s = (.error f, t) ∧ f.kind = .refused .iterationLimit) ∨
      (solve { setting with limit := a }).run s = (solve { setting with limit := b }).run s) ∧
    ∀ sol t, (solve { setting with limit := b }).run s = (.ok sol, t) →
      ((solve { setting with limit := a }).run s = (.ok sol, t) ↔
        PivotsWithin { setting with limit := b } a s) := by
  refine ⟨(curtails_solve hle setting s).imp_right Eq.symm, ?_⟩
  intro sol t hb
  constructor
  · intro ha p r u hphase hrun
    obtain ⟨v, hopt⟩ := (hphase.of_larger hle ha).optimal ha
    rcases curtails_run setting a b hle p with ⟨f, w, herr, -⟩ | heq
    · cases (Prod.mk.inj (herr.symm.trans hopt)).1
    · obtain rfl := (Prod.mk.inj ((heq.trans hopt).symm.trans hrun)).2
      exact (ensures_run _ a p _ _ hopt).2.2
  · intro hfew
    refine (solve_congr fun p hphase => ?_).trans hb
    obtain ⟨u, hopt⟩ := hphase.optimal hb
    exact (run_of_few hopt (hfew p _ u hphase hopt) a).trans hopt.symm

/-- On the problem of `solve_optimal_sample` two pivots in each phase are enough, and one is not. -/
theorem solve_limits_sample :
    ∃ e s sol t, Equations.ofRows ["x", "y"]
        [⟨[("x", 1), ("y", 2)], .le, 4, none⟩, ⟨[("x", 1)], .ge, 1, none⟩] [] [] none = .ok e ∧
      State.ofEquations sampleSetting e = .ok s ∧ (2 ≤ 500 ∧ 1 ≤ 500) ∧
      (solve { sampleSetting with limit := 500 }).run s = (.ok sol, t) ∧
      (solve { sampleSetting with limit := 2 }).run s = (.ok sol, t) ∧
      PivotsWithin { sampleSetting with limit := 500 } 2 s ∧
      ¬PivotsWithin { sampleSetting with limit := 500 } 1 s := by
  have htwo : verdict? { sampleSetting with limit := 2 }
      [⟨[("x", 1), ("y", 2)], .le, 4, none⟩, ⟨[("x", 1)], .ge, 1, none⟩] = some (.ok {
        objective := 4
        values := [(some "x", 4), (some "y", 0)]
        slacks := [(some "1", 0), (some "2", 3)]
        reducedCost := [(some "x", 0), (some "y", 1)]
        dual := [(some "1", 1), (some "2", 0)] }) := by
    decide +kernel
  have hone : verdict? { sampleSetting with limit := 1 }
      [⟨[("x", 1), ("y", 2)], .le, 4, none⟩, ⟨[("x", 1)], .ge, 1, none⟩] =
        some (.error (.refusing .iterationLimit "phase 2 after 1 pivots" none)) := by
    decide +kernel
  obtain ⟨e, s, t, he, hs, hrun⟩ := exists_run_of_verdict? htwo
  obtain ⟨e', s', t', he', hs', hrun'⟩ := exists_run_of_verdict? hone
  obtain rfl := Except.ok.inj (he'.symm.trans he)
  obtain rfl := Except.ok.inj (hs'.symm.trans hs)
  obtain ⟨hsame, hexact⟩ := solve_limits sampleSetting s' (show 2 ≤ 500 by decide)
  obtain ⟨-, hexact'⟩ := solve_limits sampleSetting s' (show 1 ≤ 500 by decide)
  rcases hsame with ⟨f, u, hrefused, -⟩ | hsame
  · cases (Prod.mk.inj (hrefused.symm.trans hrun)).1
  · have hlarge := hsame.symm.trans hrun
    refine ⟨e', s', _, t, he, hs, ⟨by decide, by decide⟩, hlarge, hrun, (hexact _ _ hlarge).mp hrun, ?_⟩
    intro hwithin
    cases (Prod.mk.inj (((hexact' _ _ hlarge).mpr hwithin).symm.trans hrun')).1

end Solving

end ExactLP.Simplex
