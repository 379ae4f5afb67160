import ExactLP.Proofs.Equations.Feasible
import ExactLP.Proofs.Simplex.Verdict
import Mathlib.Algebra.BigOperators.Fin

/-!
# Proofs.Simplex.Start — the state of some equations before the first pivot

* `ofEquations_eq`: the state that is built.
* `startable_of_unknowns`: a run may start from it.
* `admits_iff_feasible`, `value_initial`: it admits the points that the equations allow, with the same values.
-/

open Finset

namespace ExactLP.Simplex.State

variable {s : State} {setting : Setting} {e : Equations} {objective unknowns : List String} {rows : List Row}
  {aux : List (List (Column × Rat))} {i j : Nat} {x : ColumnPoint}

/-- The state that `ofEquations` builds. -/
def initial (setting : Setting) (e : Equations) : State where
  tableau := ⟨objectiveRow e.columns setting.objective :: e.rows⟩
  columns := e.columns
  basis := none :: e.basis.map fun j : Nat => some (j : Int)
  goal := setting.goal

theorem ofEquations_eq (h : ofEquations setting e = .ok s) : s = initial setting e := by
  unfold ofEquations at h
  cases hnames : checkNames setting.objective e.columns with
  | error f =>
    rw [hnames] at h
    exact absurd h (by simp [bind, Except.bind])
  | ok u =>
    rw [hnames] at h
    change checked (initial setting e) = .ok s at h
    unfold checked at h
    cases hcheck : (initial setting e).checkBasis with
    | error f =>
      rw [hcheck] at h
      exact absurd h (by simp [bind, Except.bind])
    | ok u =>
      rw [hcheck] at h
      exact (Except.ok.inj h).symm

/-! ## Entries -/

section Entries

theorem initial_entry_zero (setting : Setting) (e : Equations) (j : Nat) :
    (initial setting e).tableau.entry 0 j = columnValue
      (fun c => if c.eliminated then 0 else -setting.objective.coefficient c.name) e.columns j :=
  getD_written _ e.columns j

theorem initial_entry_succ {line : List Rat} (h : e.rows[i]? = some line) (j : Nat) :
    (initial setting e).tableau.entry (i + 1) j = line.getD j 0 := by
  rw [Grid.entry, Grid.line, initial, List.getD_cons_succ, List.getD_eq_getElem?_getD (l := e.rows), h]
  rfl

theorem basicIn_initial_iff : (initial setting e).BasicIn (i + 1) j ↔ e.basis[i]? = some j := by
  rw [BasicIn, initial, List.getElem?_cons_succ, List.getElem?_map]
  simp

end Entries

/-! ## Runs may start -/

section Startable

variable (h : e.LaidOut objective rows unknowns aux)
include h

/-- The basic column of a row, as the state sees it. -/
theorem initial_basic_spec {i j : Nat} (hb : (initial setting e).BasicIn i j) :
    ∃ c, e.columns[j]? = some c ∧ c.eliminated = false ∧ c.role.isPseudo = false ∧ c.name ∉ unknowns ∧
      ∀ (k : Nat) (line : List Rat), e.rows[k]? = some line → line.getD j 0 = if k + 1 = i then 1 else 0 := by
  obtain ⟨i, rfl⟩ := Nat.exists_eq_add_of_le' hb.1
  have hbasis := basicIn_initial_iff.mp hb
  have hlt : i < rows.length := h.length_basis ▸ (List.getElem?_eq_some_iff.mp hbasis).1
  obtain ⟨b, c, hb', hcol, helim, hpseudo, hname, hunit⟩ := h.basic_spec hlt
  have hjb : j = b := Option.some.inj (hbasis.symm.trans hb')
  refine ⟨c, hjb ▸ hcol, helim, hpseudo, hname, ?_⟩
  intro k line hline
  rw [hjb, hunit k line hline]
  simp only [Nat.add_right_cancel_iff]

theorem initial_shaped : (initial setting e).tableau.Shaped (rows.length + 1) (e.columns.length + 1) where
  height_eq := by
    rw [initial, List.length_cons, h.length_rows]
  width_eq := by
    intro line hline
    rcases List.mem_cons.mp hline with rfl | hline
    · simp [objectiveRow]
    · exact h.length_row hline

theorem initial_canonical : (initial setting e).Canonical rows.length e.columns.length := by
  have hline : ∀ i, 1 ≤ i → i ≤ rows.length → ∃ k line, i = k + 1 ∧ e.rows[k]? = some line := by
    intro i h1 h2
    exact ⟨i - 1, _, by omega, List.getElem?_eq_getElem (by rw [h.length_rows]; omega)⟩
  constructor
  · exact initial_shaped h
  · rfl
  · rw [initial, List.length_cons, List.length_map, h.length_basis]
  · rfl
  · intro i h1 h2
    obtain ⟨k, line, rfl, hk⟩ := hline i h1 h2
    rw [initial_entry_succ hk]
    exact h.rhs_of_row hk
  · intro i h1 h2
    obtain ⟨k, line, rfl, hk⟩ := hline i h1 h2
    obtain ⟨b, -, hb, -⟩ := h.basic_spec (show k < rows.length by omega)
    exact Or.inr ⟨b, Nat.succ_pos k, (basicIn_initial_iff.mpr hb).2⟩
  · intro i h1 hnone l
    have hlt : i < rows.length + 1 := by
      have hlen := (List.getElem?_eq_some_iff.mp hnone).1
      rwa [initial, List.length_cons, List.length_map, h.length_basis] at hlen
    obtain ⟨k, line, rfl, hk⟩ := hline i h1 (by omega)
    obtain ⟨b, -, hb, -⟩ := h.basic_spec (show k < rows.length by omega)
    have hbasic : (initial setting e).BasicIn (k + 1) b := basicIn_initial_iff.mpr hb
    rw [hbasic.2] at hnone
    exact absurd hnone (by simp)
  · intro i j hb
    obtain ⟨c, hcol, helim, hpseudo, -⟩ := initial_basic_spec h hb
    exact ⟨c, hcol, helim, hpseudo⟩
  · intro i j hb
    obtain ⟨c, -, -, -, -, hunit⟩ := initial_basic_spec h hb
    have hlt := (List.getElem?_eq_some_iff.mp hb.2).1
    rw [initial, List.length_cons, List.length_map, h.length_basis] at hlt
    obtain ⟨k, line, rfl, hk⟩ := hline i hb.1 (by omega)
    rw [initial_entry_succ hk, hunit k line hk, if_pos rfl]
  · intro i j hb k h1 h2 hki
    obtain ⟨c, -, -, -, -, hunit⟩ := initial_basic_spec h hb
    obtain ⟨l, line, rfl, hl⟩ := hline k h1 h2
    rw [initial_entry_succ hl, hunit l line hl, if_neg hki]

/-- The state is built when every name of the objective has a column. -/
theorem ofEquations_ok (hobj : ∀ name ∈ setting.objective.names, name ∈ unknowns) :
    ofEquations setting e = .ok (initial setting e) := by
  have hnames : checkNames setting.objective e.columns = .ok () := by
    unfold checkNames
    rw [List.filter_eq_nil_iff.mpr]
    · rfl
    · intro name hname
      obtain ⟨c, hc, hcname, -⟩ := h.exists_variable (hobj name hname)
      have hmem : (e.columns.map Column.name).contains name = true :=
        List.contains_iff_mem.mpr (List.mem_map.mpr ⟨c, hc, hcname⟩)
      rw [hmem]
      exact Bool.false_ne_true
  have hcheck : (initial setting e).checkBasis = .ok () := by
    rw [checkBasis, (initial_canonical h).corruption?_eq_none]
    rfl
  unfold ofEquations
  rw [hnames]
  change checked (initial setting e) = .ok (initial setting e)
  unfold checked
  rw [hcheck]
  rfl

/-- Basic columns are auxiliaries, so they cost nothing. -/
theorem initial_priced (hobj : ∀ name ∈ setting.objective.names, name ∈ unknowns) :
    (initial setting e).Priced := by
  intro i j hb
  obtain ⟨c, hcol, helim, -, hname, -⟩ := initial_basic_spec h hb
  have hcoef := Terms.coefficient_of_not_mem fun hmem => hname (hobj c.name hmem)
  rw [initial_entry_zero, columnValue, hcol]
  simp [helim, hcoef]

/-- A run may start with an objective over the unknowns. -/
theorem startable_of_unknowns (hobj : ∀ name ∈ setting.objective.names, name ∈ unknowns) :
    (initial setting e).Startable rows.length e.columns.length setting := by
  refine ⟨initial_canonical h, rfl, fun _ => ⟨initial_priced h hobj, fun x _ => ?_⟩⟩
  have hrhs : (initial setting e).tableau.entry 0 e.columns.length = 0 := by
    rw [initial_entry_zero, columnValue, List.getElem?_eq_none le_rfl]
  rw [Grid.residual, hrhs, sub_zero, ← sum_neg_distrib]
  apply sum_congr rfl
  intro l _
  have hcols : (initial setting e).columns = e.columns := rfl
  rw [initial_entry_zero, objectiveWeight, columnValue, columnValue, hcols, ← neg_mul]
  cases e.columns[l]? with
  | none => simp
  | some c => cases hc : c.eliminated <;> simp [hc]

omit h in
theorem initial_startable (h : e.LaidOut setting.objective.names rows unknowns aux) :
    (initial setting e).Startable rows.length e.columns.length setting :=
  startable_of_unknowns h fun _ hname => h.mem_unknowns_of_objective hname

/-- The state admits the points that the equations allow. -/
theorem admits_iff_feasible : (initial setting e).Admits x ↔ e.Feasible x := by
  rw [(initial_canonical h).admits_iff]
  have hsolves : (initial setting e).tableau.Solves rows.length e.columns.length x ↔
      ∀ line ∈ e.rows, ∑ j ∈ range e.columns.length, line.getD j 0 * x j = line.getD e.columns.length 0 := by
    constructor
    · intro hsol line hline
      obtain ⟨k, hk⟩ := List.mem_iff_getElem?.mp hline
      have hlt : k < rows.length := h.length_rows ▸ (List.getElem?_eq_some_iff.mp hk).1
      have hres := hsol (k + 1) (by omega) (by omega)
      simp only [Grid.residual, initial_entry_succ hk] at hres
      exact sub_eq_zero.mp hres
    · intro hall i h1 h2
      obtain ⟨k, rfl⟩ := Nat.exists_eq_add_of_le' h1
      have hk := List.getElem?_eq_getElem (show k < e.rows.length by rw [h.length_rows]; omega)
      have hrow := hall _ (List.mem_of_getElem? hk)
      simp only [Grid.residual, initial_entry_succ hk]
      exact sub_eq_zero.mpr hrow
  rw [hsolves]
  constructor
  · rintro ⟨hnn, hz, hrows⟩
    exact ⟨hnn, fun j c hcol hforb => hz j c hcol (Or.inl hforb), hrows⟩
  · rintro ⟨hnn, hz, hrows⟩
    refine ⟨hnn, fun j c hcol hbad => hz j c hcol ?_, hrows⟩
    rcases hbad with hforb | helim
    · exact hforb
    · rw [h.not_eliminated (List.mem_of_getElem? hcol)] at helim
      exact absurd helim (by simp)

theorem admits_iff_feasible_of_offered (offered : List (List Nat)) :
    ({ initial setting e with offered } : State).Admits x ↔ e.Feasible x :=
  ((initial_canonical h).congr rfl rfl rfl : ({ initial setting e with offered } : State).Canonical _ _).admits_iff.trans
    ((initial_canonical h).admits_iff.symm.trans (admits_iff_feasible h))

/-- No column is eliminated yet. -/
theorem initial_blank (offered : List (List Nat)) (m : Nat) :
    ({ initial setting e with offered } : State).Blank m := by
  rintro j ⟨c, hcol, he⟩
  rw [h.not_eliminated (List.mem_of_getElem? hcol)] at he
  cases he

omit h in
theorem value_initial (objective : Terms) (x : ColumnPoint) :
    (initial setting e).value objective x = e.value objective x := by
  rw [value, Equations.value]
  show ∑ l ∈ range e.columns.length, columnValue _ e.columns l * x l = _
  rw [sum_range]
  apply sum_congr rfl
  intro j _
  rw [columnValue, List.getElem?_eq_getElem j.isLt]
  rfl

end Startable

end ExactLP.Simplex.State
