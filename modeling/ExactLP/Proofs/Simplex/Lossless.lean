import ExactLP.Proofs.Simplex.Integrity

/-!
# Proofs.Simplex.Lossless — the transition keeps the problem

After phase one the transition removes columns of negative cost, artificial columns, and rows that read zero on
the columns that are left.  It loses nothing by that: what the next tableau admits are the feasible points of the
equations that the run began with, and its row 0 tells the value of each.

* `Carries`: a state that stands for the problem of some equations, without their artificial columns.
* `PhaseTwoReady.carries`: the invariants of the second phase give that.
* `transition_lossless`: so the transition leaves such a state whenever phase one returns.
-/

open Finset

namespace ExactLP.Simplex

open State

variable {setting : Setting} {rows : List Row} {objective condition split : List String}
  {internalFrom : Option Int} {e : Equations} {s t u : State} {m n j : Nat} {x : ColumnPoint}

/-! ## Definitions -/

section Defs

/-- The state stands for the problem of the equations `e`: it has their columns up to marks of elimination and
no use for the artificial ones, it admits what they allow, and its row 0 is an equation for the objective. -/
structure State.Carries (u : State) (e : Equations) (objective : Terms) : Prop where
  bare_eq : u.columns.map Column.bare = e.columns
  artificial_eliminated : ∀ j, u.Artificial j → u.Eliminated j
  basic_real : ∀ (i : Nat) (b : Int), u.basis[i]? = some (some b) →
    ∃ j : Nat, b = j ∧ j < u.columns.length ∧ ¬u.Artificial j
  admits_iff : ∀ x, u.Admits x ↔ e.Feasible x
  value_eq : ∀ x, e.Feasible x → e.value objective x =
    u.tableau.entry 0 e.columns.length - ∑ l ∈ range e.columns.length, u.tableau.entry 0 l * x l

end Defs

/-! ## The start of phase two -/

section Ready

/-- Equations come without marks of elimination. -/
theorem map_bare_columns {unknowns : List String} {aux : List (List (Column × Rat))}
    (h : e.LaidOut objective rows unknowns aux) : e.columns.map Column.bare = e.columns := by
  refine (List.map_congr_left ?_).trans (List.map_id _)
  intro c hc
  rw [Column.bare, ← h.not_eliminated hc, id]

variable (h : s.PhaseTwoReady t m n setting)
include h

theorem State.PhaseTwoReady.eliminated_of_artificial (hart : t.Artificial j) : t.Eliminated j := by
  obtain ⟨c, hcol, hc⟩ := hart
  exact ⟨c, hcol, h.artificialFree j c hcol hc⟩

/-- A basic column is usable, and artificial columns are not. -/
theorem State.PhaseTwoReady.not_artificial_of_basicIn {i : Nat} (hb : t.BasicIn i j) : ¬t.Artificial j := by
  intro hart
  obtain ⟨c, hcol, helim, -⟩ := h.canonical.usable i j hb
  rw [h.artificialFree j c hcol (hart.isArtificial hcol)] at helim
  exact Bool.noConfusion helim

/-- Row 0 is an equation for the objective at every admitted point. -/
theorem State.PhaseTwoReady.value_of_admits (hx : t.Admits x) : s.value setting.objective x =
    t.tableau.entry 0 n - ∑ l ∈ range n, t.tableau.entry 0 l * x l := by
  have hsolves := (h.canonical.admits_iff.mp hx).2.2
  rw [← h.sum_weight hx, weight_of_solves h.prices hsolves]

/-- What phase two starts from stands for the problem of the equations. -/
theorem State.PhaseTwoReady.carries (hn : n = e.columns.length)
    (hbare : s.columns.map Column.bare = e.columns) (hadm : ∀ x, s.Admits x ↔ e.Feasible x)
    (hvalue : ∀ x, s.value setting.objective x = e.value setting.objective x) :
    t.Carries e setting.objective where
  bare_eq := h.bare_eq.trans hbare
  artificial_eliminated _ := h.eliminated_of_artificial
  basic_real i b hbasis := by
    obtain ⟨j, rfl, hj⟩ := h.canonical.basicIn_of_entry hbasis
    exact ⟨j, rfl, (h.canonical.usable i j hj).lt, h.not_artificial_of_basicIn hj⟩
  admits_iff x := (h.admits_iff x).trans (hadm x)
  value_eq x hx := by
    have hx' := (h.admits_iff x).mpr ((hadm x).mpr hx)
    rw [← hvalue, ← hn, h.value_of_admits hx']

end Ready

/-! ## The transition -/

section Transition

/-- Once phase one returns, the transition is run to its end and what it leaves stands for the problem of the
equations. -/
theorem transition_lossless (hfair : setting.tieBreak.Fair)
    (hrows : Equations.ofRows objective rows condition split internalFrom = .ok e)
    (hstart : State.ofEquations setting e = .ok s) (hone : (phaseOne setting).run s = (.ok ⟨⟩, t)) :
    ∃ u, (transition setting).run t = (.ok ⟨⟩, u) ∧ u.Carries e setting.objective := by
  obtain ⟨unknowns, aux, h⟩ := Equations.exists_laidOut hrows
  obtain rfl := ofEquations_eq hstart
  have hc : (initial setting e).Canonical _ _ := initial_canonical h
  have hdone := phaseOneDone_of_ok hfair hc hone
  obtain ⟨u, hrun, hready⟩ := hdone.transition_run setting
  have hready' := PhaseTwoReady.of_phaseOne hc hdone hready
  refine ⟨u, hrun, hready'.carries rfl (map_bare_columns h) ?_ ?_⟩
  · exact fun x => admits_iff_feasible h
  · exact value_initial setting.objective

/-- The state that the transition leaves on some rows. -/
def transited? (setting : Setting) (rows : List Row) : Option State :=
  match Equations.ofRows setting.objective.names rows [] [] none with
  | .ok e =>
    match State.ofEquations setting e with
    | .ok s =>
      match (do phaseOne setting; transition setting : Step Unit).run s with
      | (.ok _, u) => some u
      | (.error _, _) => none
    | .error _ => none
  | .error _ => none

theorem exists_of_transited? (h : transited? setting rows = some u) :
    ∃ e s t, Equations.ofRows setting.objective.names rows [] [] none = .ok e ∧
      State.ofEquations setting e = .ok s ∧ (phaseOne setting).run s = (.ok ⟨⟩, t) ∧
      (transition setting).run t = (.ok ⟨⟩, u) := by
  unfold transited? at h
  split at h
  · rename_i e he
    split at h
    · rename_i s hs
      split at h
      · rename_i r v hrun
        obtain rfl := Option.some.inj h
        obtain ⟨a, t, hone, htrans⟩ := ok_of_run_bind hrun
        exact ⟨e, s, t, he, hs, hone, htrans⟩
      · exact absurd h (by simp)
    · exact absurd h (by simp)
  · exact absurd h (by simp)

/-- The equations `x + y = 2` and `2 x + 2 y = 4` say the same, so one of their rows is dropped. -/
theorem transition_lossless_sample :
    ∃ e s t u, Equations.ofRows ["x", "y"]
        [⟨[("x", 1), ("y", 1)], .eq, 2, none⟩, ⟨[("x", 2), ("y", 2)], .eq, 4, none⟩] [] [] none = .ok e ∧
      State.ofEquations sampleSetting e = .ok s ∧ (phaseOne sampleSetting).run s = (.ok ⟨⟩, t) ∧
      (transition sampleSetting).run t = (.ok ⟨⟩, u) ∧ u.basis = [none, some 0, none] ∧
      u.Carries e sampleSetting.objective := by
  have hbasis : (transited? sampleSetting
      [⟨[("x", 1), ("y", 1)], .eq, 2, none⟩, ⟨[("x", 2), ("y", 2)], .eq, 4, none⟩]).map State.basis =
        some [none, some 0, none] := by
    decide +kernel
  obtain ⟨u, hu, hb⟩ := Option.map_eq_some_iff.mp hbasis
  obtain ⟨e, s, t, he, hs, hone, hrun⟩ := exists_of_transited? hu
  obtain ⟨u', hrun', hcarries⟩ := transition_lossless TieBreak.fair_first he hs hone
  obtain rfl := (Prod.mk.inj (hrun'.symm.trans hrun)).2
  exact ⟨e, s, t, u', he, hs, hone, hrun, hb, hcarries⟩

end Transition

end ExactLP.Simplex
