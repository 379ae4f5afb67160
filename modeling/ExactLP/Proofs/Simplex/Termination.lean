import ExactLP.Proofs.Simplex.Cycling
import ExactLP.Proofs.Simplex.Optimality

/-!
# Proofs.Simplex.Termination — phases under degeneracy

The results on runs without a limit, for the phases of a run on the equations that `Equations.ofRows` lays out.
The smallest tied row does not always hold the smallest basic column, and there are problems on which the
pivots go round.

* `BeginsPhase`: where a phase starts to pivot.
* `repeatsNoBasis_and_ends_iff`: when a phase repeats no basis, and when it ends.
* `exists_cycle`: a problem on which a phase goes round for ever.
-/

namespace ExactLP.Simplex

open State

variable {setting : Setting} {rows : List Row} {condition split : List String} {internalFrom : Option Int}
  {e : Equations} {s p q d : State} {m n k : Nat}

/-- The states from which the phases of a run start to pivot. -/
inductive BeginsPhase (setting : Setting) (s : State) : State → Prop
  | first {p : State} : s.hasArtificials = true → startPhaseOne.run s = (.ok ⟨⟩, p) → BeginsPhase setting s p
  | second {p q : State} : s.hasArtificials = true → (phaseOne setting).run s = (.ok ⟨⟩, q) →
      (transition setting).run q = (.ok ⟨⟩, p) → BeginsPhase setting s p
  | only : s.hasArtificials = false → BeginsPhase setting s { s with phase := .two }

/-- A phase starts to pivot from a canonical and priced state. -/
theorem BeginsPhase.keeps (h : BeginsPhase setting s p) (hfair : setting.tieBreak.Fair) (hc : s.Canonical m n)
    (hdirect : s.hasArtificials = false → s.Priced) : p.Canonical m n ∧ p.Priced := by
  cases h with
  | first _ hrun =>
    obtain ⟨t, hrun', hct, hpt, -⟩ := startPhaseOne_run hc
    obtain rfl := (Prod.mk.inj (hrun'.symm.trans hrun)).2
    exact ⟨hct, hpt⟩
  | @second _ q _ hone htwo =>
    obtain ⟨u, hrun, hready⟩ := (phaseOneDone_of_ok hfair hc hone).transition_run setting
    obtain rfl := (Prod.mk.inj (hrun.symm.trans htwo)).2
    exact ⟨hready.canonical, hready.priced⟩
  | only hno =>
    exact ⟨hc.congr rfl rfl rfl, (hdirect hno).congr rfl rfl⟩

theorem BeginsPhase.canonical_and_priced (h : BeginsPhase setting s p) (hfair : setting.tieBreak.Fair)
    (hs : s.Startable m n setting) : p.Canonical m n ∧ p.Priced :=
  h.keeps hfair hs.canonical fun hno => (hs.direct hno).1

/-- From a degenerate state on, a phase repeats no basis, and ends without a limit on its pivots, exactly when
from some pivot on the first tied row is the one with the smallest basic column. -/
theorem repeatsNoBasis_and_ends_iff (hfair : setting.tieBreak.Fair)
    (hrows : Equations.ofRows setting.objective.names rows condition split internalFrom = .ok e)
    (hstart : State.ofEquations setting e = .ok s) (hphase : BeginsPhase setting s p)
    (hafter : after? setting k p = some d) (hdegenerate : d.latched.degenerate = true) :
    (d.RepeatsNoBasis setting ↔
      ∃ start, ∀ k ≥ start, ∀ t, after? setting k d = some t → t.LeavesLeast) ∧
    (d.Ends setting ↔ ∃ start, ∀ k ≥ start, ∀ t, after? setting k d = some t → t.LeavesLeast) := by
  obtain ⟨unknowns, aux, h⟩ := Equations.exists_laidOut hrows
  obtain rfl := ofEquations_eq hstart
  obtain ⟨hcp, hpp⟩ := hphase.canonical_and_priced hfair (initial_startable h)
  obtain ⟨hc, hp, -, -⟩ := after?_keeps hfair hcp hpp hafter
  have hends := ends_iff hfair hc hp hdegenerate
  exact ⟨(ends_iff_repeatsNoBasis hfair hc hp hdegenerate).symm.trans hends, hends⟩

/-! ## A problem that ends and one that goes round -/

section Problems

/-- Some pivots of the second phase on some rows without artificial columns. -/
def pivoted? (setting : Setting) (rows : List Row) (k : Nat) : Option State :=
  match Equations.ofRows setting.objective.names rows [] [] none with
  | .ok e =>
    match State.ofEquations setting e with
    | .ok s => if s.hasArtificials then none else after? setting k { s with phase := .two }
    | .error _ => none
  | .error _ => none

theorem exists_phase_of_pivoted? (h : pivoted? setting rows k = some d) :
    ∃ e s, Equations.ofRows setting.objective.names rows [] [] none = .ok e ∧
      State.ofEquations setting e = .ok s ∧ BeginsPhase setting s { s with phase := .two } ∧
      after? setting k { s with phase := .two } = some d := by
  unfold pivoted? at h
  split at h
  · rename_i e he
    split at h
    · rename_i s hs
      split at h
      · exact absurd h (by simp)
      · rename_i hart
        exact ⟨e, s, he, hs, .only (Bool.eq_false_iff.mpr hart), h⟩
    · exact absurd h (by simp)
  · exact absurd h (by simp)

/-- Maximize `x`. -/
def endingSetting : Setting := { goal := .maximize, objective := [("x", 1)], tieBreak := .first }

/-- Maximize `x - y - 3 z + 4 w`. -/
def cyclingSetting : Setting :=
  { goal := .maximize, objective := [("x", 1), ("y", -1), ("z", -3), ("w", 4)], tieBreak := .first }

/-- With `x ≤ y` and `y ≤ 5` the run is degenerate from the start and ends. -/
theorem repeatsNoBasis_and_ends_sample :
    ∃ e s d, Equations.ofRows ["x"]
        [⟨[("x", 1), ("y", -1)], .le, 0, none⟩, ⟨[("y", 1)], .le, 5, none⟩] [] [] none = .ok e ∧
      State.ofEquations endingSetting e = .ok s ∧ BeginsPhase endingSetting s { s with phase := .two } ∧
      after? endingSetting 0 { s with phase := .two } = some d ∧ d.latched.degenerate = true ∧
      d.Ends endingSetting ∧ d.RepeatsNoBasis endingSetting := by
  have hrun : (pivoted? endingSetting
      [⟨[("x", 1), ("y", -1)], .le, 0, none⟩, ⟨[("y", 1)], .le, 5, none⟩] 0).map (fun d =>
        (d.latched.degenerate, ((run endingSetting 3).run d).1.toOption)) = some (true, some .optimal) := by
    decide +kernel
  obtain ⟨d, hd, hres⟩ := Option.map_eq_some_iff.mp hrun
  obtain ⟨hdegenerate, hopt⟩ := Prod.mk.inj hres
  obtain ⟨e, s, he, hs, hphase, hafter⟩ := exists_phase_of_pivoted? hd
  have hends : d.Ends endingSetting := by
    rcases hr : (run endingSetting 3).run d with ⟨f | found, t⟩
    · rw [hr] at hopt
      exact absurd hopt (by simp [Except.toOption])
    · rw [hr] at hopt
      obtain rfl := Option.some.inj hopt
      exact ⟨3, t, Or.inl hr⟩
  obtain ⟨hrep, hend⟩ :=
    repeatsNoBasis_and_ends_iff TieBreak.fair_first he hs hphase hafter hdegenerate
  exact ⟨e, s, d, he, hs, hphase, hafter, hdegenerate, hends, hrep.mpr (hend.mp hends)⟩

/-- On this problem a phase comes back to its first degenerate basis after six pivots, and so it goes on for
ever. -/
theorem exists_cycle :
    ∃ e s d u, Equations.ofRows ["x", "y", "z", "w"]
        [⟨[("x", -4), ("y", 4), ("z", -1), ("w", -2)], .le, 0, none⟩,
          ⟨[("x", -4), ("y", -2), ("z", 3), ("w", -2)], .le, 0, none⟩,
          ⟨[("x", 2), ("y", 3), ("z", -4), ("w", 2)], .le, 0, none⟩] [] [] none = .ok e ∧
      State.ofEquations cyclingSetting e = .ok s ∧ BeginsPhase cyclingSetting s { s with phase := .two } ∧
      after? cyclingSetting 1 { s with phase := .two } = some d ∧ d.degenerate = true ∧
      after? cyclingSetting 6 d = some u ∧ d.basis = u.basis ∧ ¬d.RepeatsNoBasis cyclingSetting ∧
      ¬d.Ends cyclingSetting := by
  have hrun : (pivoted? cyclingSetting
      [⟨[("x", -4), ("y", 4), ("z", -1), ("w", -2)], .le, 0, none⟩,
        ⟨[("x", -4), ("y", -2), ("z", 3), ("w", -2)], .le, 0, none⟩,
        ⟨[("x", 2), ("y", 3), ("z", -4), ("w", 2)], .le, 0, none⟩] 1).map (fun d =>
          (d.degenerate, (after? cyclingSetting 6 d).map State.basis == some d.basis)) =
      some (true, true) := by
    decide +kernel
  obtain ⟨d, hd, hres⟩ := Option.map_eq_some_iff.mp hrun
  obtain ⟨hdegenerate, hround⟩ := Prod.mk.inj hres
  obtain ⟨u, hu, hbasis⟩ := Option.map_eq_some_iff.mp (beq_iff_eq.mp hround)
  obtain ⟨e, s, he, hs, hphase, hafter⟩ := exists_phase_of_pivoted? hd
  have hnot : ¬d.RepeatsNoBasis cyclingSetting := fun hrep =>
    hrep 0 6 d u (by omega) rfl hu hbasis.symm
  obtain ⟨unknowns, aux, h⟩ := Equations.exists_laidOut he
  obtain rfl := ofEquations_eq hs
  obtain ⟨hcp, hpp⟩ := hphase.canonical_and_priced TieBreak.fair_first (initial_startable h)
  obtain ⟨hc, hp, -, -⟩ := after?_keeps TieBreak.fair_first hcp hpp hafter
  have hlatched : d.latched.degenerate = true := by
    show (d.degenerate || d.hasZeroRhs) = true
    rw [hdegenerate, Bool.true_or]
  exact ⟨e, _, d, u, he, hs, hphase, hafter, hdegenerate, hu, hbasis.symm, hnot, fun hends =>
    hnot ((ends_iff_repeatsNoBasis TieBreak.fair_first hc hp hlatched).mp hends)⟩

end Problems

end ExactLP.Simplex
