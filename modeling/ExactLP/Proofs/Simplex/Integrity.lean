import ExactLP.Proofs.Simplex.Termination

/-!
# Proofs.Simplex.Integrity — what every tableau of a run keeps

Between two pivots a tableau is intact: no right side is negative, the basic columns are unit vectors over all
rows, and a row without one is zero.  So a run never comes upon a corrupted tableau, never divides by zero, and
never finds the first phase unbounded.

* `Reaches`: the states between the pivots of a run, those of the transition included.
* `Intact`, `Reaches.intact`: each of them is intact.
* `solve_intact`: so it is on the equations of any rows, with any objective over their variables.
-/

namespace ExactLP.Simplex

open State

variable {setting : Setting} {rows : List Row} {objective condition split : List String}
  {internalFrom : Option Int} {e : Equations} {s q u t : State} {m n k : Nat}

/-! ## Definitions -/

section Defs

/-- In the transition `u` is reached once the useless columns are eliminated, and `t` once the artificial
columns are removed from the first `k` rows. -/
structure Clears (setting : Setting) (s u t : State) (k : Nat) : Prop where
  two_phases : s.hasArtificials = true
  run_eq : ∃ q, (phaseOne setting).run s = (.ok ⟨⟩, q) ∧ eliminateUseless.run q = (.ok ⟨⟩, u)
  rows_eq : ((u.constraintRows.take k).forM removeArtificial).run u = (.ok ⟨⟩, t)

/-- The states between the pivots of a run from `s`: after some pivots of a phase, and after some rows of the
transition, where a pivot may take the place of an artificial column. -/
inductive Reaches (setting : Setting) (s : State) : State → Prop
  | start : Reaches setting s s
  | pivoted {p t : State} {k : Nat} : BeginsPhase setting s p → after? setting k p = some t →
      Reaches setting s t
  | cleared {u t : State} {k : Nat} : Clears setting s u t k → Reaches setting s t
  | replaced {u t v : State} {k a j b : Nat} : Clears setting s u t k → u.constraintRows[k]? = some a →
      t.BasicIn a j → t.Artificial j → t.replacement? a = some b → (pivot a b).run t = (.ok ⟨⟩, v) →
      Reaches setting s v

/-- What holds of a tableau and its basis between pivots. -/
structure State.Intact (s : State) : Prop where
  basis_length : s.basis.length = s.tableau.rowCount
  rhs_nonneg : ∀ i ∈ s.constraintRows, 0 ≤ s.tableau.lastEntry i
  distinct : ∀ (i k : Nat) (b : Int), s.basis[i]? = some (some b) → s.basis[k]? = some (some b) → i = k
  usable : ∀ (i : Nat) (b : Int), s.basis[i]? = some (some b) → ∃ j : Nat, b = j ∧ s.Usable j
  unit : ∀ i j : Nat, s.basis[i]? = some (some (j : Int)) →
    ∀ k < s.tableau.rowCount, s.tableau.entry k j = if k = i then 1 else 0
  empty : ∀ i ∈ s.constraintRows, s.basis[i]? = some none → ∀ j, s.tableau.entry i j = 0

end Defs

/-! ## Reached states are intact -/

section Reached

/-- An entry of the basis belongs to a constraint row and is the position of a column. -/
theorem State.Canonical.basicIn_of_entry (hc : s.Canonical m n) {i : Nat} {b : Int}
    (h : s.basis[i]? = some (some b)) : ∃ j : Nat, b = j ∧ s.BasicIn i j := by
  have hlt := hc.basis_length ▸ (List.getElem?_eq_some_iff.mp h).1
  have hi : i ≠ 0 := by
    rintro rfl
    rw [hc.basis_zero] at h
    exact absurd h (by simp)
  rcases hc.slot i (by omega) (by omega) with hnone | ⟨j, hj⟩
  · rw [h] at hnone
    exact absurd hnone (by simp)
  · exact ⟨j, Option.some.inj (Option.some.inj (h.symm.trans hj.2)), hj⟩

/-- Canonical and priced states are intact. -/
theorem State.Canonical.intact (hc : s.Canonical m n) (hp : s.Priced) : s.Intact where
  basis_length := hc.basis_length.trans hc.shaped.rowCount_eq.symm
  rhs_nonneg i hi := by
    obtain ⟨h1, h2⟩ := hc.mem_constraintRows.mp hi
    rw [hc.lastEntry_eq]
    exact hc.rhs_nonneg i h1 h2
  distinct i k b hi hk := by
    obtain ⟨j, rfl, hj⟩ := hc.basicIn_of_entry hi
    obtain ⟨l, hl, hj'⟩ := hc.basicIn_of_entry hk
    obtain rfl := Int.ofNat_inj.mp hl
    exact hc.row_unique hj hj'
  usable i b h := by
    obtain ⟨j, rfl, hj⟩ := hc.basicIn_of_entry h
    exact ⟨j, rfl, hc.usable i j hj⟩
  unit i j h k hk := by
    obtain ⟨l, hl, hj⟩ := hc.basicIn_of_entry h
    obtain rfl := Int.ofNat_inj.mp hl
    rw [hc.shaped.rowCount_eq] at hk
    by_cases hki : k = i
    · rw [if_pos hki, hki, hc.unit i j hj]
    · rw [if_neg hki]
      rcases Nat.eq_zero_or_pos k with rfl | hpos
      · exact hp i j hj
      · exact hc.zero_elsewhere i j hj k hpos (by omega) hki
  empty i hi h := hc.empty i (hc.mem_constraintRows.mp hi).1 h

/-- What holds in the transition: the invariants, and artificial columns that are basic at level zero only. -/
theorem Clears.spec (h : Clears setting s u t k) (hfair : setting.tieBreak.Fair)
    (hs : s.Startable m n setting) : u.Canonical m n ∧ t.Canonical m n ∧ t.Priced ∧
      ∀ i j, t.BasicIn i j → t.Artificial j → t.tableau.entry i n = 0 := by
  obtain ⟨q, hone, huseless⟩ := h.run_eq
  have hdone := phaseOneDone_of_ok hfair hs.canonical hone
  obtain ⟨u', hrun, hred, hall, hlevel⟩ := hdone.eliminateUseless_spec
  obtain rfl := (Prod.mk.inj (hrun.symm.trans huseless)).2
  obtain ⟨t', hrows, hred', hzero, -⟩ := hred.canonical.removeSome_run (u'.constraintRows.take k)
    (fun a ha => hred.canonical.mem_constraintRows.mp (List.take_subset _ _ ha)) hall hlevel
  obtain rfl := (Prod.mk.inj (hrows.symm.trans h.rows_eq)).2
  exact ⟨hred.canonical, hred'.canonical, hred'.priced (hred.priced hdone.priced), hzero⟩

/-- Every state between pivots is intact. -/
theorem Reaches.intact (h : Reaches setting s t) (hfair : setting.tieBreak.Fair)
    (hs : s.Startable m n setting) (hp : s.Priced) : t.Intact := by
  cases h with
  | start => exact hs.canonical.intact hp
  | pivoted hphase hafter =>
    obtain ⟨hcp, hpp⟩ := hphase.canonical_and_priced hfair hs
    obtain ⟨hc, hp', -, -⟩ := after?_keeps hfair hcp hpp hafter
    exact hc.intact hp'
  | cleared hclear =>
    obtain ⟨-, hc, hp', -⟩ := hclear.spec hfair hs
    exact hc.intact hp'
  | replaced hclear hrow hb hart hk hrun =>
    obtain ⟨hcu, hc, hp', hlevel⟩ := hclear.spec hfair hs
    have ha := hcu.mem_constraintRows.mp (List.mem_of_getElem? hrow)
    obtain ⟨v, hrun', hfree⟩ := hc.replace_run ha (hlevel _ _ hb hart) hk
    obtain rfl := (Prod.mk.inj (hrun'.symm.trans hrun)).2
    exact hfree.reduced.canonical.intact (hfree.reduced.priced hp')

end Reached

/-! ## Runs on equations -/

section Runs

/-- With an objective over the variables of some equations there is a first state, every state that is reached
from it between pivots is intact, and a run from it that fails finds no corrupted tableau, no division by zero
and no unbounded first phase. -/
theorem solve_intact (hfair : setting.tieBreak.Fair)
    (hrows : Equations.ofRows objective rows condition split internalFrom = .ok e)
    (hobj : ∀ name ∈ setting.objective.names, ∃ c ∈ e.columns, c.name = name ∧ c.role.isVariable = true) :
    ∃ s, State.ofEquations setting e = .ok s ∧ (∀ t, Reaches setting s t → t.Intact) ∧
      ∀ f t, (solve setting).run s = (.error f, t) →
        f.kind ≠ .corrupted ∧ f.kind ≠ .zeroDivision ∧ f.kind ≠ .refused .notOptimal := by
  obtain ⟨unknowns, aux, h⟩ := Equations.exists_laidOut hrows
  have hunknowns : ∀ name ∈ setting.objective.names, name ∈ unknowns := by
    intro name hname
    obtain ⟨c, hc, rfl, hvar⟩ := hobj name hname
    exact h.name_mem_unknowns hc hvar
  have hs := startable_of_unknowns h hunknowns
  refine ⟨initial setting e, ofEquations_ok h hunknowns,
    fun t ht => ht.intact hfair hs (initial_priced h hunknowns), ?_⟩
  intro f t hrun
  obtain ⟨r, u, hrun', hout⟩ := hs.solve_cases hfair
  obtain ⟨rfl, rfl⟩ := Prod.mk.inj (hrun'.symm.trans hrun)
  cases hout with
  | unbounded _ _ => exact ⟨FaultKind.noConfusion, FaultKind.noConfusion, FaultKind.noConfusion⟩
  | infeasible _ | limit =>
    exact ⟨FaultKind.noConfusion, FaultKind.noConfusion, fun hkind => by cases hkind⟩

theorem solve_intact_samples :
    (∃ e s t, Equations.ofRows ["x", "y"]
        [⟨[("x", 1), ("y", 2)], .le, 4, none⟩, ⟨[("x", 1)], .le, 3, none⟩] [] [] none = .ok e ∧
      State.ofEquations sampleSetting e = .ok s ∧ Reaches sampleSetting s t ∧
      t.basis = [none, some 2, some 0] ∧ t.Intact) ∧
    ∃ e s f t, Equations.ofRows ["x", "y"]
        [⟨[("x", 1), ("y", 2)], .le, 4, none⟩, ⟨[("x", 1)], .ge, 5, none⟩] [] [] none = .ok e ∧
      State.ofEquations sampleSetting e = .ok s ∧ (solve sampleSetting).run s = (.error f, t) ∧
      f.kind = .refused .infeasible ∧ f.kind ≠ .corrupted ∧ f.kind ≠ .zeroDivision ∧
      f.kind ≠ .refused .notOptimal := by
  have hpivot : (pivoted? sampleSetting
      [⟨[("x", 1), ("y", 2)], .le, 4, none⟩, ⟨[("x", 1)], .le, 3, none⟩] 1).map State.basis =
        some [none, some 2, some 0] := by
    decide +kernel
  have hverdict : verdict? sampleSetting
      [⟨[("x", 1), ("y", 2)], .le, 4, none⟩, ⟨[("x", 1)], .ge, 5, none⟩] =
        some (.error (.refusing .infeasible "phase 1 ended with infeasibility 1" none)) := by
    decide +kernel
  constructor
  · obtain ⟨t, ht, hbasis⟩ := Option.map_eq_some_iff.mp hpivot
    obtain ⟨e, s, he, hs, hphase, hafter⟩ := exists_phase_of_pivoted? ht
    obtain ⟨unknowns, aux, h⟩ := Equations.exists_laidOut he
    obtain ⟨s', hs', hintact, -⟩ := solve_intact TieBreak.fair_first he fun name hname =>
      h.exists_variable (h.mem_unknowns_of_objective hname)
    obtain rfl := Except.ok.inj (hs.symm.trans hs')
    exact ⟨e, s, t, he, hs, .pivoted hphase hafter, hbasis, hintact t (.pivoted hphase hafter)⟩
  · obtain ⟨e, s, t, he, hs, hrun⟩ := exists_run_of_verdict? hverdict
    obtain ⟨unknowns, aux, h⟩ := Equations.exists_laidOut he
    obtain ⟨s', hs', -, hfault⟩ := solve_intact TieBreak.fair_first he fun name hname =>
      h.exists_variable (h.mem_unknowns_of_objective hname)
    obtain rfl := Except.ok.inj (hs.symm.trans hs')
    exact ⟨e, s, _, t, he, hs, hrun, rfl, hfault _ _ hrun⟩

end Runs

end ExactLP.Simplex
