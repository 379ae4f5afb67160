import ExactLP.Proofs.Simplex.Duality
import ExactLP.Proofs.Simplex.Reading

/-!
# Proofs.Simplex.Report — the slacks that a solution reports

A solution reports one slack for each label of a reported row.  It is the gap between the sides of the last such row,
at the values that the solution gives to the variables.  The check of the column names keeps the labels of the rows
apart that bound from above, and those of the others, but not the former from the latter.

* `LaidOut.value_labelPosition`: at a feasible point the first auxiliary of a row has its gap.
* `solve_slacks`: the slacks of a solution.
* `exists_lost_slack`: a problem with two rows of one label, of which only one is reported.
-/

namespace ExactLP

variable {setting : Simplex.Setting} {rows : List Row} {objective unknowns condition split : List String}
  {internalFrom : Option Int} {e : Equations} {s t : Simplex.State} {sol : Solution} {row : Row} {i : Nat}
  {x : ColumnPoint} {z : Assignment}

namespace Equations

theorem LaidOut.value_labelPosition (h : e.LaidOut objective rows unknowns (allAuxiliaries rows internalFrom))
    (hx : e.Feasible x) (hgives : e.Gives x z) (hi : rows[i]? = some row) (hnd : row.names.Nodup) :
    x (labelPosition unknowns (allAuxiliaries rows internalFrom) i) = row.gap z := by
  have haux := getElem?_allAuxiliaries hi internalFrom
  obtain ⟨hslacks, -⟩ := h.ownValues_of_feasible hx hgives hi hnd haux
  obtain ⟨c, rest, hfirst, -⟩ := auxiliaries_first row.cmp (row.labelAt i)
    (internalFrom.any fun start => start ≤ (i : Int))
  have hlt : 0 < (auxiliaries row.cmp (row.labelAt i) (internalFrom.any fun start => start ≤ (i : Int))).length := by
    rw [hfirst]
    exact Nat.succ_pos _
  rw [← slacks_getD_zero, ← hslacks, ownValues_getD hlt, labelPosition]

/-- What is read under labels, for rows as they were given. -/
theorem exists_label_iff_of_ofRows (he : ofRows objective rows condition split internalFrom = .ok e)
    {key : Option String} : (∃ c ∈ e.columns, Solution.label? c = some key) ↔
      ∃ i row, rows[i]? = some row ∧ Reported internalFrom i ∧ key = some (row.labelAt i) := by
  rw [(laidOut_of_ofRows he).1.exists_label_iff]
  simp only [List.getElem?_map, Option.map_eq_some_iff, exists_exists_and_eq_and,
    Row.labelAt_congr (Row.label_normalized _)]

end Equations

namespace Simplex

open Equations (Reported ReportedLast)

/-- Whatever candidates were offered before, a solution has exactly the labels of the reported rows, each once.  Under
the label of a row, which no later reported row has, stands the gap between the sides of the row as it was turned, at
the values of the columns from which the reported values are put together.  Two rows have one label only where one of
them bounds from above and the other one does not. -/
theorem solve_slacks (hfair : setting.tieBreak.Fair) (hnd : ∀ row ∈ rows, row.names.Nodup)
    (hrows : Equations.ofRows setting.objective.names rows condition split internalFrom = .ok e)
    (hstart : State.ofEquations setting e = .ok s) (offered : List (List Nat))
    (hrun : (solve setting).run { s with offered } = (.ok sol, t)) :
    sol.slacks.names.Nodup ∧
      (∀ key, key ∈ sol.slacks.names ↔
        ∃ i row, rows[i]? = some row ∧ Reported internalFrom i ∧ key = some (row.labelAt i)) ∧
      (∃ z, e.Gives t.basicPoint z ∧
        (∀ name, (∀ y ∈ split, name ≠ positivePart y ∧ name ≠ negativePart y) →
          joinParts split z name = sol.value name) ∧
        ∀ i row, ReportedLast rows internalFrom i row →
          sol.slacks.find? (some (row.labelAt i)) = some (row.normalized.gap z)) ∧
      ∀ (i k : Nat) (row row' : Row), rows[i]? = some row → rows[k]? = some row' → i < k →
        row.labelAt i = row'.labelAt k → row.normalized.cmp.priceSign ≠ row'.normalized.cmp.priceSign := by
  have h := (Equations.laidOut_of_ofRows hrows).1
  obtain ⟨hfeas, hreads⟩ := solve_reads hfair hrows hstart offered hrun
  obtain ⟨z, hgives, hvalues⟩ := Equations.exists_assignment hrows hreads
  have hnormal : ∀ {i : Nat} {row : Row}, rows[i]? = some row →
      (rows.map Row.normalized)[i]? = some row.normalized := by
    intro i row hi
    rw [List.getElem?_map, hi, Option.map_some]
  refine ⟨hreads.nodup_slacks, fun key => ?_, ⟨z, hgives, hvalues, fun i row hlast => ?_⟩, ?_⟩
  · rw [← Equations.exists_label_iff_of_ofRows hrows, ← not_iff_not, ← Keyed.find?_eq_none_iff, hreads.slacks_eq,
      Option.map_eq_none_iff, Solution.place?_eq_none_iff]
    simp
  · have hplace := h.place?_label (hlast.map Row.label_normalized)
    rw [Row.labelAt_congr row.label_normalized] at hplace
    rw [hreads.slacks_eq, hplace, Option.map_some, h.value_labelPosition hfeas hgives (hnormal hlast.row_eq)
      (Row.nodup_names_normalized (hnd row (List.mem_of_getElem? hlast.row_eq)))]
  · intro i k row row' hi hk hik hlabel
    refine h.priceSign_ne (hnormal hi) (hnormal hk) hik ?_
    rw [Row.labelAt_congr row.label_normalized, Row.labelAt_congr row'.label_normalized, hlabel]

/-- The rows `x + 2 y ≤ 4`, called `a`, and `-y ≤ -1`, which is turned and has no name. -/
def reportedRows : List Row := [⟨[("x", 1), ("y", 2)], .le, 4, some "a"⟩, ⟨[("y", -1)], .le, -1, none⟩]

/-- With these rows the gaps at the maximum of `x + y` are zero, and both are reported. -/
theorem solve_slacks_sample :
    ∃ e s sol t, Equations.ofRows ["x", "y"] reportedRows [] [] none = .ok e ∧
      State.ofEquations sampleSetting e = .ok s ∧ (solve sampleSetting).run s = (.ok sol, t) ∧
      sol.slacks = [(some "a", 0), (some "2", 0)] ∧ ∀ (i : Nat) (row : Row), reportedRows[i]? = some row →
        sol.slacks.find? (some (row.labelAt i)) = some (row.normalized.gap sol.value) := by
  have hend : (ending? sampleSetting reportedRows).map Prod.fst = some (.ok {
      objective := 3
      values := [(some "x", 2), (some "y", 1)]
      slacks := [(some "a", 0), (some "2", 0)]
      reducedCost := [(some "x", 0), (some "y", 0)]
      dual := [(some "a", 1), (some "2", 1)] }) := by
    decide +kernel
  have hlabels : (reportedRows.mapIdx fun i row => row.labelAt i).Nodup := by decide +kernel
  obtain ⟨⟨r, t⟩, hr, rfl⟩ := Option.map_eq_some_iff.mp hend
  obtain ⟨e, s, he, hs, hrun⟩ := exists_run_of_ending? hr
  obtain ⟨-, -, ⟨z, -, hvalues, hgaps⟩, -⟩ :=
    solve_slacks TieBreak.fair_first (by decide) he hs s.offered hrun
  obtain rfl : z = Solution.value _ := funext fun name => hvalues name fun y hy => absurd hy List.not_mem_nil
  exact ⟨e, s, _, t, he, hs, hrun, rfl, fun i row hi =>
    hgaps i row (Equations.reportedLast_of_nodup hlabels hi (Equations.reported_none i))⟩

/-- The rows `x ≤ 4`, called `2`, and `x ≥ 1`, which has no name. -/
def sharedRows : List Row := [⟨[("x", 1)], .le, 4, some "2"⟩, ⟨[("x", 1)], .ge, 1, none⟩]

/-- These rows are accepted and both have the label `2`.  At the maximum of `x`, which is 4, the first one has no gap,
but the only slack that is reported is the gap 3 of the second one. -/
theorem exists_lost_slack :
    ∃ e s sol t, Equations.ofRows ["x"] sharedRows [] [] none = .ok e ∧
      State.ofEquations singleSetting e = .ok s ∧ (solve singleSetting).run s = (.ok sol, t) ∧
      sol.values = [(some "x", 4)] ∧ sol.slacks = [(some "2", 3)] ∧
      ∃ row, sharedRows[0]? = some row ∧ Reported none 0 ∧ sol.slacks.length < sharedRows.length ∧
        sol.slacks.find? (some (row.labelAt 0)) ≠ some (row.normalized.gap sol.value) := by
  have hend : (ending? singleSetting sharedRows).map Prod.fst = some (.ok {
      objective := 4
      values := [(some "x", 4)]
      slacks := [(some "2", 3)]
      reducedCost := [(some "x", 0)]
      dual := [(some "2", 0)] }) := by
    decide +kernel
  obtain ⟨⟨r, t⟩, hr, rfl⟩ := Option.map_eq_some_iff.mp hend
  obtain ⟨e, s, he, hs, hrun⟩ := exists_run_of_ending? hr
  refine ⟨e, s, _, t, he, hs, hrun, rfl, rfl, _, rfl, Equations.reported_none 0, by decide, ?_⟩
  decide +kernel

end Simplex

end ExactLP
