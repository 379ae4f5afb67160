import ExactLP.Proofs.Equations.Labels
import ExactLP.Proofs.Simplex.Optimality
import Mathlib.LinearAlgebra.Dual.Lemmas

/-!
# Proofs.Simplex.Duality — the prices of the rows

At an optimum row 0 is a combination of the rows that the run started from, less the objective.  The price that a
solution reports for a row is its factor in that combination, where the column that the price is read off was
not eliminated; otherwise zero is reported, and the prices need not add up to the objective value.

* `Grid.exists_multipliers`: a form that vanishes wherever some rows do is a combination of them.
* `PhaseTwoReady.exists_multipliers`: row 0 at an optimum is such a combination.
* `PhaseTwoReady.cost_of_eliminated`: an eliminated column costs nothing.
* `solve_prices`: what the prices of unnamed rows are.
* `exists_price_gap`: a problem whose prices do not add up to the objective value.
-/

open Finset

namespace ExactLP

/-! ## Combinations of rows -/

namespace Grid

variable {g : Grid} {m n : Nat} {f : Nat → Rat} {fixed : Nat → Prop}

/-- The form over `n` columns with given coefficients. -/
def form (n : Nat) (f : Nat → Rat) : (Fin n → Rat) →ₗ[Rat] Rat where
  toFun z := ∑ j : Fin n, f j * z j
  map_add' y z := by simp only [Pi.add_apply, mul_add, sum_add_distrib]
  map_smul' c z := by
    rw [RingHom.id_apply, smul_eq_mul, mul_sum]
    exact sum_congr rfl fun j _ => mul_left_comm _ _ _

theorem form_apply (f : Nat → Rat) (z : Fin n → Rat) : form n f z = ∑ j : Fin n, f j * z j := rfl

theorem form_single (f : Nat → Rat) (j : Fin n) : form n f (Pi.single j 1) = f j := by
  rw [form_apply, sum_eq_single_of_mem j (mem_univ j)]
  · rw [Pi.single_eq_same, mul_one]
  · intro k _ hk
    rw [Pi.single_eq_of_ne hk, mul_zero]

open Classical in
/-- A form that vanishes wherever the constraint rows and the fixed columns do is a combination of the rows,
but for the fixed columns. -/
theorem exists_multipliers
    (h : ∀ z : ColumnPoint, (∀ j, fixed j → z j = 0) →
      (∀ i, 1 ≤ i → i ≤ m → ∑ j ∈ range n, g.entry i j * z j = 0) → ∑ j ∈ range n, f j * z j = 0) :
    ∃ w : Fin m → Rat, ∀ j < n, ¬fixed j → f j = ∑ i : Fin m, w i * g.entry (i + 1) j := by
  let L : Fin m ⊕ Fin n → (Fin n → Rat) →ₗ[Rat] Rat :=
    Sum.elim (fun i => form n (g.entry (i + 1))) fun j => if fixed j then LinearMap.proj j else 0
  have hker : ⨅ x, LinearMap.ker (L x) ≤ LinearMap.ker (form n f) := by
    intro z hz
    have hzero : ∀ x, L x z = 0 := fun x => (Submodule.mem_iInf _).mp hz x
    let z' : ColumnPoint := fun j => if hj : j < n then z ⟨j, hj⟩ else 0
    have hz' : ∀ j : Fin n, z' j = z j := fun j => dif_pos j.isLt
    have hsum : ∀ q : Nat → Rat, ∑ j ∈ range n, q j * z' j = form n q z := by
      intro q
      rw [form_apply, sum_range]
      exact sum_congr rfl fun j _ => by rw [hz']
    rw [LinearMap.mem_ker, ← hsum]
    refine h z' (fun j hfix => ?_) fun i h1 h2 => ?_
    · by_cases hj : j < n
      · have hj0 := hzero (Sum.inr ⟨j, hj⟩)
        simp only [L, Sum.elim_inr, if_pos hfix] at hj0
        exact (hz' ⟨j, hj⟩).trans hj0
      · exact dif_neg hj
    · obtain ⟨k, rfl⟩ := Nat.exists_eq_add_of_le' h1
      rw [hsum]
      exact hzero (Sum.inl ⟨k, h2⟩)
  obtain ⟨c, hc⟩ := (Submodule.mem_span_range_iff_exists_fun Rat).mp (mem_span_of_iInf_ker_le_ker hker)
  refine ⟨fun i => c (Sum.inl i), fun j hj hfree => ?_⟩
  -- The combination is read at the unit vector of the column.
  have happly := LinearMap.congr_fun hc (Pi.single (⟨j, hj⟩ : Fin n) 1)
  rw [form_single, Fintype.sum_sum_type] at happly
  rw [← happly, LinearMap.add_apply, LinearMap.sum_apply, LinearMap.sum_apply]
  have hfixed : ∑ k : Fin n, (c (Sum.inr k) • L (Sum.inr k)) (Pi.single (⟨j, hj⟩ : Fin n) 1) = 0 := by
    apply sum_eq_zero
    intro k _
    by_cases hk : fixed k
    · have hne : k ≠ ⟨j, hj⟩ := by
        rintro rfl
        exact hfree hk
      simp [L, hk, Pi.single_eq_of_ne hne]
    · simp [L, hk]
  rw [hfixed, add_zero]
  apply sum_congr rfl
  intro i _
  rw [LinearMap.smul_apply, smul_eq_mul]
  exact congrArg (c (Sum.inl i) * ·) (form_single (g.entry (i + 1)) _)

end Grid

/-! ## Columns of prices -/

namespace Equations

open Solution (label?)

variable {e : Equations} {objective unknowns : List String} {rows : List Row} {i j : Nat} {row : Row} {c : Column}

section Unnamed

variable (h : e.LaidOut objective rows unknowns (allAuxiliaries rows none))
  (hunnamed : ∀ row ∈ rows, row.label = none)
include h hunnamed

omit h in
/-- Unnamed rows are labelled by their places. -/
theorem labelAt_of_unnamed (hi : rows[i]? = some row) : row.labelAt i = toString (i + 1) := by
  rw [Row.labelAt, hunnamed row (List.mem_of_getElem? hi), Option.getD_none]

/-- The column of a price stands in its row only. -/
theorem LaidOut.price_spec (hi : rows[i]? = some row) :
    ∃ c, e.columns[labelPosition unknowns (allAuxiliaries rows none) i]? = some c ∧
      label? c = some (some (toString (i + 1))) ∧ c.name ∉ unknowns ∧
      ∀ (k : Nat) (line : List Rat), e.rows[k]? = some line →
        line.getD (labelPosition unknowns (allAuxiliaries rows none) i) 0 = if k = i then row.cmp.priceSign else 0 := by
  rw [← labelAt_of_unnamed hunnamed hi]
  exact h.label_spec hi (reported_none i)

/-- No other column is read under the label of the row. -/
theorem LaidOut.eq_labelPosition (hj : e.columns[j]? = some c)
    (hlabel : label? c = some (some (toString (i + 1)))) : j = labelPosition unknowns (allAuxiliaries rows none) i := by
  obtain ⟨b, row, hrow, -, hkey, rfl⟩ := h.exists_label hj hlabel
  rw [labelAt_of_unnamed hunnamed hrow] at hkey
  have hb : i + 1 = b + 1 := toString_nat_injective (Option.some.inj hkey)
  rw [Nat.succ.inj hb]

end Unnamed

end Equations

namespace Simplex

/-! ## Row 0 at an optimum -/

namespace State

variable {s t : State} {m n j : Nat} {setting : Setting}

theorem objectiveWeight_of_eliminated (helim : t.Eliminated j) (objective : Terms) :
    t.objectiveWeight objective j = 0 := by
  obtain ⟨c, hcol, he⟩ := helim
  rw [objectiveWeight, columnValue, hcol]
  simp [he]

theorem Canonical.rowOf?_of_eliminated (hc : t.Canonical m n) (helim : t.Eliminated j) :
    t.rowOf? j = none := by
  rw [hc.rowOf?_eq_none_iff]
  intro i hb
  obtain ⟨c, hcol, he, -⟩ := hc.usable i j hb
  obtain ⟨c', hcol', he'⟩ := helim
  rw [Option.some.inj (hcol.symm.trans hcol'), he'] at he
  exact absurd he (by simp)

/-- An eliminated column costs nothing. -/
theorem PhaseTwoReady.cost_of_eliminated (h : s.PhaseTwoReady t m n setting) (hblank : s.Blank m)
    (helim : t.Eliminated j) : t.tableau.entry 0 j = 0 := by
  have hc := h.canonical
  have hrow := hc.rowOf?_of_eliminated helim
  obtain ⟨c, hcol, he⟩ := helim
  have hjn : j < n := hc.columns_length ▸ (List.getElem?_eq_some_iff.mp hcol).1
  have hzero := h.blank hblank j ⟨c, hcol, he⟩
  have hmoved := hc.weight_moved h.prices h.priced hrow hjn 1
  -- No constraint row sees the column, so nothing but the column itself moves.
  have hstay : ∀ k, k ≠ j → t.moved j 1 k = t.basicPoint k := by
    intro k hk
    cases hrk : t.rowOf? k with
    | none => rw [moved_of_ne hrk hk, basicPoint_of_rowOf? hrk]
    | some i =>
      have hb := hc.rowOf?_eq_some_iff.mp hrk
      rw [hc.moved_of_basicIn hrow hb, hc.basicPoint_of_basicIn hb, hzero i hb.1 (hc.row_le hb), zero_mul,
        sub_zero]
  have hsame : ∑ l ∈ range n, t.objectiveWeight setting.objective l * t.moved j 1 l =
      ∑ l ∈ range n, t.objectiveWeight setting.objective l * t.basicPoint l := by
    apply sum_congr rfl
    intro l _
    by_cases hl : l = j
    · rw [hl, objectiveWeight_of_eliminated ⟨c, hcol, he⟩, zero_mul, zero_mul]
    · rw [hstay l hl]
  rw [hsame, hc.weight_basicPoint h.prices h.priced, one_mul] at hmoved
  linarith

/-- Row 0 at the end of a run is a combination of the first constraint rows, less the objective, and so is its
right side. -/
theorem PhaseTwoReady.exists_multipliers (h : s.PhaseTwoReady t m n setting) (hs : s.Canonical m n) :
    ∃ w : Fin m → Rat, t.tableau.entry 0 n = ∑ i : Fin m, w i * s.tableau.entry (i + 1) n ∧
      ∀ j < n, ¬t.Eliminated j → t.tableau.entry 0 j =
        ∑ i : Fin m, w i * s.tableau.entry (i + 1) j - t.objectiveWeight setting.objective j := by
  set f : Nat → Rat := fun j => t.tableau.entry 0 j + t.objectiveWeight setting.objective j with hf
  have hadm := h.admits_basicPoint
  have hbasic : s.tableau.Solves m n t.basicPoint := (hs.admits_iff.mp ((h.admits_iff _).mp hadm)).2.2
  have hfixed : ∀ j, t.Eliminated j → t.basicPoint j = 0 :=
    fun j hj => basicPoint_of_rowOf? (h.canonical.rowOf?_of_eliminated hj)
  have hvalue : ∀ x : ColumnPoint, (∀ j, t.Eliminated j → x j = 0) → s.tableau.Solves m n x →
      ∑ j ∈ range n, f j * x j = t.tableau.entry 0 n := by
    intro x hx hsol
    have hweight := weight_of_solves h.prices (h.solves_of x hx hsol)
    simp only [hf, add_mul, sum_add_distrib, hweight]
    ring
  have hvanish : ∀ z : ColumnPoint, (∀ j, t.Eliminated j → z j = 0) →
      (∀ i, 1 ≤ i → i ≤ m → ∑ j ∈ range n, s.tableau.entry i j * z j = 0) →
      ∑ j ∈ range n, f j * z j = 0 := by
    intro z hz hhom
    have hmove := hvalue (fun j => t.basicPoint j + z j)
      (fun j hj => by rw [hfixed j hj, hz j hj, add_zero]) fun i h1 h2 => by
        have hres := hbasic i h1 h2
        rw [Grid.residual] at hres ⊢
        simp only [mul_add, sum_add_distrib, hhom i h1 h2, add_zero]
        exact hres
    simp only [mul_add, sum_add_distrib, hvalue _ hfixed hbasic] at hmove
    linarith
  obtain ⟨w, hw⟩ := Grid.exists_multipliers hvanish
  refine ⟨w, ?_, fun j hj hfree => ?_⟩
  · rw [← hvalue _ hfixed hbasic]
    calc ∑ j ∈ range n, f j * t.basicPoint j
        = ∑ j ∈ range n, ∑ i : Fin m, w i * (s.tableau.entry (i + 1) j * t.basicPoint j) := by
          apply sum_congr rfl
          intro j hj
          by_cases helim : t.Eliminated j
          · rw [hfixed j helim, mul_zero]
            exact (sum_eq_zero fun i _ => by rw [mul_zero, mul_zero]).symm
          · rw [hw j (mem_range.mp hj) helim, sum_mul]
            exact sum_congr rfl fun i _ => mul_assoc _ _ _
      _ = ∑ i : Fin m, w i * s.tableau.entry (i + 1) n := by
          rw [sum_comm]
          apply sum_congr rfl
          intro i _
          have hres := hbasic (i + 1) (by omega) (by omega)
          rw [← mul_sum, sub_eq_zero.mp hres]
  · rw [← hw j hj hfree]
    simp only [hf]
    ring

end State

/-! ## The prices of unnamed rows -/

section Prices

variable {setting : Setting} {rows : List Row} {unknowns condition split : List String} {e : Equations}
  {s t : State} {sol : Solution} {i : Nat} {row : Row}

/-- What a solution reports as the factor of row `i`, which has no name. -/
def factor (sol : Solution) (row : Row) (i : Nat) : Rat :=
  row.cmp.priceSign * (sol.dual.find? (some (toString (i + 1)))).getD 0

/-- The column that the price of row `i` is read off was eliminated. -/
def PriceEliminated (t : State) (i : Nat) : Prop :=
  ∃ c ∈ t.columns, Solution.label? c = some (some (toString (i + 1))) ∧ c.eliminated = true

section Column

variable {names : List String} (h : e.LaidOut names rows unknowns (Equations.allAuxiliaries rows none))
  (hunnamed : ∀ row ∈ rows, row.label = none)
  (hbare : t.columns.map Column.bare = e.columns.map Column.bare)
include h hunnamed hbare

/-- In a state of the run the label of a row still has its column, and no other one. -/
theorem exists_price_column (hi : rows[i]? = some row) :
    ∃ c, t.columns[Equations.labelPosition unknowns (Equations.allAuxiliaries rows none) i]? = some c ∧
      Solution.label? c = some (some (toString (i + 1))) ∧ c.name ∉ unknowns ∧
      ∀ j c', t.columns[j]? = some c' → Solution.label? c' = some (some (toString (i + 1))) →
        j = Equations.labelPosition unknowns (Equations.allAuxiliaries rows none) i := by
  obtain ⟨c, hcol, hlabel, hname, -⟩ := h.price_spec hunnamed hi
  obtain ⟨c', hcol', hbare'⟩ := State.exists_of_map_bare_eq hbare.symm hcol
  have hlabel' : Solution.label? c'.bare = Solution.label? c.bare := congrArg _ hbare'
  have hname' : c'.bare.name = c.bare.name := congrArg _ hbare'
  refine ⟨c', hcol', hlabel'.trans hlabel, fun hmem => hname ?_, fun j d hd hdlabel => ?_⟩
  · exact (show c'.name = c.name from hname') ▸ hmem
  · obtain ⟨d', hd', hbare''⟩ := State.exists_of_map_bare_eq hbare hd
    have hdlabel' : Solution.label? d'.bare = Solution.label? d.bare := congrArg _ hbare''
    exact h.eq_labelPosition hunnamed hd' (hdlabel'.trans hdlabel)

theorem find?_price {level cost : Nat → Rat} (hreads : sol.ReadsOff t.columns level cost)
    (hi : rows[i]? = some row) : sol.dual.find? (some (toString (i + 1))) =
      some (cost (Equations.labelPosition unknowns (Equations.allAuxiliaries rows none) i)) := by
  obtain ⟨c, hcol, hlabel, -, huniq⟩ := exists_price_column h hunnamed hbare hi
  rw [hreads.dual_eq, Solution.place?_eq_some hcol hlabel fun j c' hj hlabel' => (huniq j c' hj hlabel').le]
  rfl

theorem priceEliminated_iff (hi : rows[i]? = some row) :
    PriceEliminated t i ↔ t.Eliminated (Equations.labelPosition unknowns (Equations.allAuxiliaries rows none) i) := by
  obtain ⟨c, hcol, hlabel, -, huniq⟩ := exists_price_column h hunnamed hbare hi
  constructor
  · rintro ⟨d, hd, hdlabel, helim⟩
    obtain ⟨j, hj⟩ := List.mem_iff_getElem?.mp hd
    exact ⟨d, huniq j d hj hdlabel ▸ hj, helim⟩
  · rintro ⟨d, hd, helim⟩
    rw [Option.some.inj (hd.symm.trans hcol)] at helim
    exact ⟨c, List.mem_of_getElem? hcol, hlabel, helim⟩

/-- Where the costs are made with some factors, the factor of a row is read off its column, unless the column was
eliminated. -/
theorem factor_eq {m : Nat} {w : Fin m → Rat} {objective : Terms} {level cost : Nat → Rat} {i : Fin m}
    (hreads : sol.ReadsOff t.columns level cost) (hi : rows[i.val]? = some row)
    (hline : ∀ k : Fin m, e.rows[k.val]? = some (e.rows.getD k []))
    (hsub : ∀ name ∈ objective.names, name ∈ unknowns)
    (hcost : ∀ (j : Nat) (c : Column), t.columns[j]? = some c → c.eliminated = false →
      cost j = ∑ k, w k * (e.rows.getD k []).getD j 0 - objective.coefficient c.name)
    (hkept : ¬PriceEliminated t i) : factor sol row i = w i := by
  obtain ⟨c, hcol, hlabel, hname, -⟩ := exists_price_column h hunnamed hbare hi
  obtain ⟨-, -, -, -, hunit⟩ := h.price_spec hunnamed hi
  have he : c.eliminated = false :=
    Bool.eq_false_iff.mpr fun he => hkept ⟨c, List.mem_of_getElem? hcol, hlabel, he⟩
  have hcoef := Terms.coefficient_of_not_mem fun hmem => hname (hsub c.name hmem)
  rw [factor, find?_price h hunnamed hbare hreads hi, Option.getD_some, hcost _ c hcol he, hcoef, sub_zero, mul_sum,
    sum_eq_single_of_mem i (mem_univ i)]
  · rw [hunit _ _ (hline i), if_pos rfl, mul_comm, mul_assoc, Comparator.priceSign_mul_self, mul_one]
  · intro k _ hk
    rw [hunit _ _ (hline k), if_neg fun heq => hk (Fin.ext heq), mul_zero, mul_zero]

/-- A row whose column was eliminated is reported with factor zero. -/
theorem factor_eq_zero {level cost : Nat → Rat} (hreads : sol.ReadsOff t.columns level cost)
    (hi : rows[i]? = some row) (hzero : ∀ j, t.Eliminated j → cost j = 0) (hgone : PriceEliminated t i) :
    factor sol row i = 0 := by
  have hplace := (priceEliminated_iff h hunnamed hbare hi).mp hgone
  rw [factor, find?_price h hunnamed hbare hreads hi, Option.getD_some, hzero _ hplace, mul_zero]

end Column

/-- The rows of the first state are the equations. -/
theorem initial_entry_getD (hi : i < e.rows.length) (j : Nat) :
    (State.initial setting e).tableau.entry (i + 1) j = (e.rows.getD i []).getD j 0 := by
  rw [List.getD_eq_getElem _ _ hi]
  exact State.initial_entry_succ (List.getElem?_eq_getElem hi) j

/-- The objective value of a solution is a combination of the right sides, and with the same factors row 0 is one
of the rows.  For each row the solution reports its factor, unless the column that the price is read off was
eliminated, and then it reports zero.  So where that happened to no row with a right side, the reported factors
add up to the objective value. -/
theorem solve_prices (hfair : setting.tieBreak.Fair) (hunnamed : ∀ row ∈ rows, row.label = none)
    (hrows : Equations.ofRows setting.objective.names rows condition split none = .ok e)
    (hstart : State.ofEquations setting e = .ok s) (hrun : (solve setting).run s = (.ok sol, t)) :
    ∃ w : Fin rows.length → Rat,
      sol.objective - setting.offset = ∑ i, w i * rows[i].normalized.rhs ∧
      (∀ (j : Nat) (c : Column), t.columns[j]? = some c → c.eliminated = false → t.tableau.entry 0 j =
        ∑ i, w i * (e.rows.getD i []).getD j 0 - setting.objective.coefficient c.name) ∧
      (∀ i : Fin rows.length, some (toString (i.val + 1)) ∈ sol.dual.names ∧
        (¬PriceEliminated t i → factor sol rows[i].normalized i = w i) ∧
        (PriceEliminated t i → factor sol rows[i].normalized i = 0)) ∧
      ((∀ i : Fin rows.length, rows[i].normalized.rhs ≠ 0 → ¬PriceEliminated t i) →
        sol.objective - setting.offset =
          ∑ i : Fin rows.length, factor sol rows[i].normalized i * rows[i].normalized.rhs) := by
  obtain ⟨h, -⟩ := Equations.laidOut_of_ofRows hrows
  obtain rfl := State.ofEquations_eq hstart
  have hunnamed' : ∀ row ∈ rows.map Row.normalized, row.label = none :=
    List.forall_mem_map.mpr fun row hrow => row.label_normalized.trans (hunnamed row hrow)
  have hs := State.initial_startable h
  obtain ⟨hready, -, hobj, hreads⟩ := hs.solved hfair hrun
  have hbare : t.columns.map Column.bare = e.columns.map Column.bare := hready.bare_eq
  have hlength := h.length_rows
  rw [List.length_map] at hs hready hlength
  obtain ⟨w, hvalue, hcost⟩ := hready.exists_multipliers hs.canonical
  have hnormal : ∀ i : Fin rows.length, (rows.map Row.normalized)[i.val]? = some rows[i].normalized := by
    intro i
    rw [List.getElem?_map, List.getElem?_eq_getElem i.isLt]
    rfl
  have hentry : ∀ (i : Fin rows.length) (j : Nat),
      (State.initial setting e).tableau.entry (i + 1) j = (e.rows.getD i []).getD j 0 :=
    fun i j => initial_entry_getD (by rw [hlength]; exact i.isLt) j
  have hline : ∀ i : Fin rows.length, e.rows[i.val]? = some (e.rows.getD i []) := by
    intro i
    have hlt : i.val < e.rows.length := by rw [hlength]; exact i.isLt
    rw [List.getD_eq_getElem _ _ hlt, List.getElem?_eq_getElem hlt]
  have hrhs : ∀ i : Fin rows.length,
      (State.initial setting e).tableau.entry (i + 1) e.columns.length = rows[i].normalized.rhs := by
    intro i
    rw [hentry, Option.some.inj ((hline i).symm.trans (h.getElem?_rows (hnormal i))), h.length_columns,
      Equations.equation_rhs]
  have hsum : sol.objective - setting.offset = ∑ i, w i * rows[i].normalized.rhs := by
    rw [hobj, add_sub_cancel_right, hvalue]
    exact sum_congr rfl fun i _ => by rw [hrhs]
  have hcosts : ∀ (j : Nat) (c : Column), t.columns[j]? = some c → c.eliminated = false →
      t.tableau.entry 0 j =
        ∑ i, w i * (e.rows.getD i []).getD j 0 - setting.objective.coefficient c.name := by
    intro j c hcol he
    have hjn : j < e.columns.length :=
      hready.canonical.columns_length ▸ (List.getElem?_eq_some_iff.mp hcol).1
    have hfree : ¬t.Eliminated j := by
      rintro ⟨c', hcol', he'⟩
      rw [Option.some.inj (hcol.symm.trans hcol'), he'] at he
      exact absurd he (by simp)
    have hweight : t.objectiveWeight setting.objective j = setting.objective.coefficient c.name := by
      rw [State.objectiveWeight, State.columnValue, hcol]
      simp [he]
    rw [hcost j hjn hfree, hweight]
    simp only [hentry]
  have hblank : (State.initial setting e).Blank rows.length := State.initial_blank h [] _
  have hfactor : ∀ i : Fin rows.length, some (toString (i.val + 1)) ∈ sol.dual.names ∧
      (¬PriceEliminated t i → factor sol rows[i].normalized i = w i) ∧
      (PriceEliminated t i → factor sol rows[i].normalized i = 0) := by
    intro i
    refine ⟨?_, ?_, ?_⟩
    · have hprice := find?_price h hunnamed' hbare hreads (hnormal i)
      by_contra hno
      rw [Keyed.find?_eq_none_iff.mpr hno] at hprice
      exact absurd hprice (by simp)
    · exact factor_eq h hunnamed' hbare hreads (hnormal i) hline (fun _ hname => h.mem_unknowns_of_objective hname)
        hcosts
    · exact factor_eq_zero h hunnamed' hbare hreads (hnormal i) fun _ => hready.cost_of_eliminated hblank
  refine ⟨w, hsum, hcosts, hfactor, fun hkept => ?_⟩
  rw [hsum]
  apply sum_congr rfl
  intro i _
  by_cases hzero : rows[i].normalized.rhs = 0
  · rw [hzero, mul_zero, mul_zero]
  · rw [(hfactor i).2.1 (hkept i hzero)]

end Prices

/-! ## Prices that add up and prices that do not -/

section Problems

variable {setting : Setting} {rows : List Row}

/-- How the run on some rows ends. -/
def ending? (setting : Setting) (rows : List Row) (split : List String := []) :
    Option (Except Fault Solution × State) :=
  match Equations.ofRows setting.objective.names rows [] split none with
  | .ok e =>
    match State.ofEquations setting e with
    | .ok s => some ((solve setting).run s)
    | .error _ => none
  | .error _ => none

theorem exists_run_of_ending? {split : List String} {r : Except Fault Solution × State}
    (h : ending? setting rows split = some r) :
    ∃ e s, Equations.ofRows setting.objective.names rows [] split none = .ok e ∧
      State.ofEquations setting e = .ok s ∧ (solve setting).run s = r := by
  unfold ending? at h
  split at h
  · rename_i e he
    split at h
    · rename_i s hs
      exact ⟨e, s, he, hs, Option.some.inj h⟩
    · exact absurd h (by simp)
  · exact absurd h (by simp)

/-- The rows `x + 2 y ≤ 4` and `y ≥ 1`. -/
def pricedRows : List Row := [⟨[("x", 1), ("y", 2)], .le, 4, none⟩, ⟨[("y", 1)], .ge, 1, none⟩]

/-- With these rows the prices add up to the maximum of `x + y`. -/
theorem solve_prices_sample :
    ∃ e s sol t, Equations.ofRows ["x", "y"] pricedRows [] [] none = .ok e ∧
      State.ofEquations sampleSetting e = .ok s ∧ (solve sampleSetting).run s = (.ok sol, t) ∧
      sol.objective = 3 ∧ sol.dual = [(some "1", 1), (some "2", 1)] ∧
      sol.objective - sampleSetting.offset = ∑ i : Fin pricedRows.length,
        factor sol pricedRows[i].normalized i * pricedRows[i].normalized.rhs := by
  have hend : (ending? sampleSetting pricedRows).map (fun r =>
      (r.1, r.2.columns.all fun c => !c.eliminated || Solution.label? c == none)) = some (.ok {
        objective := 3
        values := [(some "x", 2), (some "y", 1)]
        slacks := [(some "1", 0), (some "2", 0)]
        reducedCost := [(some "x", 0), (some "y", 0)]
        dual := [(some "1", 1), (some "2", 1)] }, true) := by
    decide +kernel
  obtain ⟨⟨r, t⟩, hr, hres⟩ := Option.map_eq_some_iff.mp hend
  obtain ⟨rfl, hkept⟩ := Prod.mk.inj hres
  obtain ⟨e, s, he, hs, hrun⟩ := exists_run_of_ending? hr
  obtain ⟨w, -, -, -, hprices⟩ := solve_prices TieBreak.fair_first (by decide) he hs hrun
  refine ⟨e, s, _, t, he, hs, hrun, rfl, rfl, hprices fun i _ => ?_⟩
  rintro ⟨c, hc, hlabel, helim⟩
  have hno := List.all_eq_true.mp hkept c hc
  rw [hlabel, helim] at hno
  exact absurd hno (by simp)

/-- Maximize `x`. -/
def singleSetting : Setting := { goal := .maximize, objective := [("x", 1)], tieBreak := .first }

/-- The rows `x ≤ 2` and `x ≥ 2`. -/
def gapRows : List Row := [⟨[("x", 1)], .le, 2, none⟩, ⟨[("x", 1)], .ge, 2, none⟩]

/-- With these rows the maximum of `x` is 2, and both rows are reported with price zero. -/
theorem exists_price_gap :
    ∃ e s sol t, Equations.ofRows ["x"] gapRows [] [] none = .ok e ∧
      State.ofEquations singleSetting e = .ok s ∧ (solve singleSetting).run s = (.ok sol, t) ∧
      sol.objective = 2 ∧ sol.dual = [(some "1", 0), (some "2", 0)] ∧
      sol.objective - singleSetting.offset ≠ ∑ i : Fin gapRows.length,
        factor sol gapRows[i].normalized i * gapRows[i].normalized.rhs := by
  have hend : (ending? singleSetting gapRows).map Prod.fst = some (.ok {
      objective := 2
      values := [(some "x", 2)]
      slacks := [(some "1", 0), (some "2", 0)]
      reducedCost := [(some "x", 0)]
      dual := [(some "1", 0), (some "2", 0)] }) := by
    decide +kernel
  obtain ⟨⟨r, t⟩, hr, rfl⟩ := Option.map_eq_some_iff.mp hend
  obtain ⟨e, s, he, hs, hrun⟩ := exists_run_of_ending? hr
  refine ⟨e, s, _, t, he, hs, hrun, rfl, rfl, ?_⟩
  decide +kernel

end Problems

end Simplex

end ExactLP
