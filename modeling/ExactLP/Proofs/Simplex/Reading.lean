import ExactLP.Proofs.Equations.Projection
import ExactLP.Proofs.Simplex.Optimality
import ExactLP.Proofs.Standard.Split

/-!
# Proofs.Simplex.Reading — a solution as an assignment of the columns

A solution reports values of the caller's names.  They are read off a feasible point: the parts of a split
variable are subtracted, any other variable has its own column, and a name without a column is zero.

* `solve_reads`: the feasible point that a solution is read off.
* `variable_cases`: the columns of variables; `added_spec`, `subtracted_spec`, `own_spec`: which of them write
  under which key.
* `exists_assignment_of_split`, `exists_assignment`: an assignment of the variable columns from which `joinParts` gives
  the reported values; `split_or_not_part`: of any name with a value that is not zero.
-/

namespace ExactLP

variable {sol : Solution} {e : Equations} {rows : List Row} {objective condition split : List String}
  {internalFrom : Option Int} {c : Column} {x : ColumnPoint} {cost : Nat → Rat} {name y : String} {i j : Nat}

open Solution

/-! ## The point of a solution -/

section Point

/-- The keys of columns do not depend on which columns were eliminated. -/
theorem Solution.place?_congr {key : Column → Option (Option String)} (hkey : ∀ c : Column, key c = key c.bare)
    {columns columns' : List Column} (h : columns.map Column.bare = columns'.map Column.bare)
    (k : Option String) : place? key columns k = place? key columns' k := by
  have hplace : ∀ columns : List Column, place? key columns k =
      (((columns.map Column.bare).zipIdx.reverse.find? fun p => decide (key p.1 = some k)).map Prod.snd) := by
    intro columns
    rw [place?, List.zipIdx_map, ← List.map_reverse, List.find?_map, Option.map_map]
    have hpred : (fun p : Column × Nat => decide (key p.1 = some k)) =
        (fun p : Column × Nat => decide (key p.1 = some k)) ∘ Prod.map Column.bare id := by
      funext p
      exact congrArg (fun l => decide (l = some k)) (hkey p.1)
    rw [← hpred]
    rfl
  rw [hplace, hplace, h]

theorem Solution.hasPart_congr {columns columns' : List Column}
    (h : columns.map Column.bare = columns'.map Column.bare) (x : String) : HasPart columns x ↔ HasPart columns' x := by
  have hkey : ∀ key : Column → Option (Option String), (∀ c : Column, key c = key c.bare) →
      ((∃ c ∈ columns, key c = some (some x)) ↔ ∃ c ∈ columns', key c = some (some x)) := by
    intro key hkey
    have hnone : ∀ columns : List Column,
        (∃ c ∈ columns, key c = some (some x)) ↔ place? key columns (some x) ≠ none := by
      intro columns
      rw [ne_eq, place?_eq_none_iff]
      simp
    rw [hnone, hnone, place?_congr hkey h]
  unfold HasPart
  simp only [and_or_left, exists_or]
  exact or_congr (hkey added? fun _ => rfl) (hkey subtracted? fun _ => rfl)

theorem Solution.ReadsOff.of_bare_eq {columns columns' : List Column} {level : Nat → Rat}
    (h : sol.ReadsOff columns level cost) (hbare : columns.map Column.bare = columns'.map Column.bare) :
    sol.ReadsOff columns' level cost where
  slacks_eq k := by rw [h.slacks_eq, place?_congr (fun _ => rfl) hbare]
  dual_eq k := by rw [h.dual_eq, place?_congr (fun _ => rfl) hbare]
  split_eq x hx := by
    rw [h.split_eq x ((hasPart_congr hbare x).mpr hx), place?_congr (fun _ => rfl) hbare,
      place?_congr (fun _ => rfl) hbare]
  split_cost_eq x hx := by
    rw [h.split_cost_eq x ((hasPart_congr hbare x).mpr hx), place?_congr (fun _ => rfl) hbare]
  own_eq x hx := by
    rw [h.own_eq x fun hpart => hx ((hasPart_congr hbare x).mp hpart), place?_congr (fun _ => rfl) hbare]
  own_cost_eq x hx := by
    rw [h.own_cost_eq x fun hpart => hx ((hasPart_congr hbare x).mp hpart), place?_congr (fun _ => rfl) hbare]
  nodup_slacks := h.nodup_slacks
  names_dual := h.names_dual
  names_reducedCost := h.names_reducedCost

/-- Whatever candidates were offered before, a solution is read off a feasible point. -/
theorem Simplex.solve_reads {setting : Setting} {s t : State} (hfair : setting.tieBreak.Fair)
    (hrows : Equations.ofRows setting.objective.names rows condition split internalFrom = .ok e)
    (hstart : State.ofEquations setting e = .ok s) (offered : List (List Nat))
    (hrun : (solve setting).run { s with offered } = (.ok sol, t)) :
    e.Feasible t.basicPoint ∧ sol.ReadsOff e.columns t.basicPoint (t.tableau.entry 0) := by
  have h := (Equations.laidOut_of_ofRows hrows).1
  obtain rfl := State.ofEquations_eq hstart
  obtain ⟨hready, -, -, hreads⟩ := ((State.initial_startable h).of_offered offered).solved hfair hrun
  refine ⟨?_, hreads.of_bare_eq hready.bare_eq⟩
  exact (State.admits_iff_feasible_of_offered h offered).mp ((hready.admits_iff _).mp hready.admits_basicPoint)

end Point

/-! ## The keys of columns -/

section Keys

namespace Equations

theorem variableColumn_positivePart (h : y ∈ split) :
    variableColumn condition split (positivePart y) = ⟨positivePart y, .positivePart (some y), false, false⟩ := by
  unfold variableColumn
  cases hfind : split.find? fun x => positivePart x == positivePart y || negativePart x == positivePart y with
  | none => exact absurd (List.find?_eq_none.mp hfind y h) (by simp)
  | some x =>
    have hx : positivePart x = positivePart y ∨ negativePart x = positivePart y := by
      simpa using List.find?_some hfind
    obtain rfl := positivePart_inj (hx.resolve_right (positivePart_ne_negativePart y x).symm)
    simp

theorem variableColumn_negativePart (h : y ∈ split) :
    variableColumn condition split (negativePart y) = ⟨negativePart y, .negativePart (some y), false, false⟩ := by
  unfold variableColumn
  cases hfind : split.find? fun x => positivePart x == negativePart y || negativePart x == negativePart y with
  | none => exact absurd (List.find?_eq_none.mp hfind y h) (by simp)
  | some x =>
    have hx : positivePart x = negativePart y ∨ negativePart x = negativePart y := by
      simpa using List.find?_some hfind
    obtain rfl := negativePart_inj (hx.resolve_left (positivePart_ne_negativePart x y))
    simp [positivePart_ne_negativePart x x]

theorem variableColumn_of_ne (h : ∀ x ∈ split, name ≠ positivePart x ∧ name ≠ negativePart x) :
    variableColumn condition split name =
      ⟨name, if condition.contains name then .condition else .decision, false, false⟩ := by
  have hnone : (split.find? fun x => positivePart x == name || negativePart x == name) = none := by
    refine List.find?_eq_none.mpr fun x hx => ?_
    simpa using ⟨(h x hx).1.symm, (h x hx).2.symm⟩
  unfold variableColumn
  rw [hnone]

theorem isVariable_of_added {k : Option String} (h : added? c = some k) : c.role.isVariable = true := by
  unfold added? at h
  cases hrole : c.role <;> simp_all [Role.isVariable]

theorem isVariable_of_subtracted {k : Option String} (h : subtracted? c = some k) : c.role.isVariable = true := by
  unfold subtracted? at h
  cases hrole : c.role <;> simp_all [Role.isVariable]

theorem isVariable_of_own {k : Option String} (h : own? c = some k) : c.role.isVariable = true := by
  unfold own? at h
  cases hrole : c.role <;> simp_all [Role.isVariable]

variable (he : ofRows objective rows condition split internalFrom = .ok e)
include he

/-- The column of a variable is that of an added part, of a subtracted part, or of no part. -/
theorem variable_cases (hc : c ∈ e.columns) (hvar : c.role.isVariable = true) :
    (∃ y ∈ split, c = ⟨positivePart y, .positivePart (some y), false, false⟩) ∨
      (∃ y ∈ split, c = ⟨negativePart y, .negativePart (some y), false, false⟩) ∨
      (∀ x ∈ split, c.name ≠ positivePart x ∧ c.name ≠ negativePart x) ∧
        c = ⟨c.name, if condition.contains c.name then .condition else .decision, false, false⟩ := by
  obtain ⟨h, hcol⟩ := laidOut_of_ofRows he
  obtain ⟨j, hj⟩ := List.mem_iff_getElem?.mp hc
  have hlt := (h.isVariable_iff hj).mp hvar
  rw [hcol, List.getElem?_append_left (by simpa using hlt), List.getElem?_map, List.getElem?_eq_getElem hlt] at hj
  obtain rfl := Option.some.inj hj
  generalize (unknownsOf objective rows)[j] = name
  rw [name_variableColumn]
  by_cases hpos : ∃ y ∈ split, name = positivePart y
  · obtain ⟨y, hy, rfl⟩ := hpos
    exact Or.inl ⟨y, hy, variableColumn_positivePart hy⟩
  · by_cases hneg : ∃ y ∈ split, name = negativePart y
    · obtain ⟨y, hy, rfl⟩ := hneg
      exact Or.inr (Or.inl ⟨y, hy, variableColumn_negativePart hy⟩)
    · have hno : ∀ x ∈ split, name ≠ positivePart x ∧ name ≠ negativePart x :=
        fun x hx => ⟨fun heq => hpos ⟨x, hx, heq⟩, fun heq => hneg ⟨x, hx, heq⟩⟩
      exact Or.inr (Or.inr ⟨hno, variableColumn_of_ne hno⟩)

/-- The column that is added for `y` is that of its part. -/
theorem added_spec (hc : c ∈ e.columns) (hkey : added? c = some (some y)) :
    y ∈ split ∧ c.name = positivePart y := by
  rcases variable_cases he hc (isVariable_of_added hkey) with ⟨x, hx, rfl⟩ | ⟨x, -, rfl⟩ | ⟨-, hcol⟩
  · obtain rfl : x = y := by simpa [added?] using hkey
    exact ⟨hx, rfl⟩
  · cases hkey
  · rw [hcol, added?] at hkey
    cases hcond : condition.contains c.name <;> rw [hcond] at hkey <;> cases hkey

/-- The column that is subtracted for `y` is that of its part. -/
theorem subtracted_spec (hc : c ∈ e.columns) (hkey : subtracted? c = some (some y)) :
    y ∈ split ∧ c.name = negativePart y := by
  rcases variable_cases he hc (isVariable_of_subtracted hkey) with ⟨x, -, rfl⟩ | ⟨x, hx, rfl⟩ | ⟨-, hcol⟩
  · cases hkey
  · obtain rfl : x = y := by simpa [subtracted?] using hkey
    exact ⟨hx, rfl⟩
  · rw [hcol, subtracted?] at hkey
    cases hcond : condition.contains c.name <;> rw [hcond] at hkey <;> cases hkey

omit he in
/-- A column of its own has the name that it is read under. -/
theorem own_spec (hkey : own? c = some (some name)) : c.name = name := by
  unfold own? at hkey
  split_ifs at hkey
  split at hkey
  · simpa using hkey
  · simpa using hkey
  · cases hkey

/-- A key that only columns of one name have is read there. -/
theorem place?_of_name {key : Column → Option (Option String)} {k : Option String}
    (hname : ∀ c ∈ e.columns, key c = some k → c.name = name) (hj : e.columns[j]? = some c) (hkey : key c = some k) :
    place? key e.columns k = some j := by
  refine place?_eq_some hj hkey fun i c' hi hkey' => ?_
  refine ((laidOut_of_ofRows he).1.eq_of_name hi hj ?_).le
  rw [hname c' (List.mem_of_getElem? hi) hkey', hname c (List.mem_of_getElem? hj) hkey]

end Equations

end Keys

/-! ## The assignment of a solution -/

section Assignment

namespace Equations

variable (he : ofRows objective rows condition split internalFrom = .ok e)
include he

/-- Only split variables have parts. -/
theorem mem_of_hasPart (h : HasPart e.columns name) : name ∈ split := by
  obtain ⟨c, hc, hadd | hsub⟩ := h
  · exact (added_spec he hc hadd).1
  · exact (subtracted_spec he hc hsub).1

/-- A variable that is not split is read off its own column. -/
theorem value_of_not_split (hreads : sol.ReadsOff e.columns x cost) (hname : name ∉ split) :
    sol.value name = ((place? own? e.columns (some name)).map x).getD 0 :=
  hreads.own_eq name fun hpart => hname (mem_of_hasPart he hpart)

/-- The values of a solution are those of an assignment of the columns that its point gives, but for a part that is no
split variable itself, which has no value of its own. -/
theorem exists_assignment_of_split (hreads : sol.ReadsOff e.columns x cost) :
    ∃ z, e.Gives x z ∧ ∀ name, (name ∈ split ∨ ∀ y ∈ split, name ≠ positivePart y ∧ name ≠ negativePart y) →
      joinParts split z name = sol.value name := by
  -- where no part of a split variable has a column, its value is given to the part that is added
  let negative : Assignment := fun y => ((place? subtracted? e.columns (some y)).map x).getD 0
  let own : Assignment := fun name => ((place? own? e.columns (some name)).map x).getD 0
  refine ⟨ofParts split (fun y => sol.value y + negative y) negative own, ?_, ?_⟩
  · intro j c hj hvar
    have hc := List.mem_of_getElem? hj
    rcases variable_cases he hc hvar with ⟨y, hy, rfl⟩ | ⟨y, hy, rfl⟩ | ⟨hno, hcol⟩
    · have hplace := place?_of_name he (fun c hc hkey => (added_spec he hc hkey).2) hj rfl
      rw [ofParts_positivePart hy, hreads.split_eq y ⟨_, hc, Or.inl rfl⟩, hplace]
      exact (sub_add_cancel _ _).symm
    · have hplace := place?_of_name he (fun c hc hkey => (subtracted_spec he hc hkey).2) hj rfl
      rw [ofParts_negativePart hy]
      exact (congrArg (fun p => (Option.map x p).getD 0) hplace).symm
    · have hkey : own? c = some (some c.name) := by
        rw [hcol, own?]
        cases condition.contains c.name <;> rfl
      have hplace := place?_of_name he (fun _ _ => own_spec) hj hkey
      rw [ofParts_of_ne hno]
      exact (congrArg (fun p => (Option.map x p).getD 0) hplace).symm
  · intro name hcase
    by_cases hname : name ∈ split
    · rw [joinParts, if_pos hname, ofParts_positivePart hname, ofParts_negativePart hname]
      exact add_sub_cancel_right _ _
    · rw [joinParts_of_not_mem hname, ofParts_of_ne (hcase.resolve_left hname)]
      exact (value_of_not_split he hreads hname).symm

/-- Where no part has the name of a variable, every value is that of the assignment. -/
theorem exists_assignment (hreads : sol.ReadsOff e.columns x cost) :
    ∃ z, e.Gives x z ∧ ∀ name, (∀ y ∈ split, name ≠ positivePart y ∧ name ≠ negativePart y) →
      joinParts split z name = sol.value name := by
  obtain ⟨z, hgives, hjoin⟩ := exists_assignment_of_split he hreads
  exact ⟨z, hgives, fun name hno => hjoin name (Or.inr hno)⟩

/-- A variable that is not split has a column of its own where its value is not zero. -/
theorem exists_own_of_value_ne_zero (hreads : sol.ReadsOff e.columns x cost) (hname : name ∉ split)
    (hvalue : sol.value name ≠ 0) : ∃ c ∈ e.columns, own? c = some (some name) := by
  rw [value_of_not_split he hreads hname] at hvalue
  cases hplace : place? own? e.columns (some name) with
  | none =>
    rw [hplace] at hvalue
    exact absurd rfl hvalue
  | some j =>
    obtain ⟨c, hj, hkey⟩ := place?_spec hplace
    exact ⟨c, List.mem_of_getElem? hj, hkey⟩

/-- A variable whose value is not zero is split or no part. -/
theorem split_or_not_part (hreads : sol.ReadsOff e.columns x cost) (hvalue : sol.value name ≠ 0) :
    name ∈ split ∨ ∀ y ∈ split, name ≠ positivePart y ∧ name ≠ negativePart y := by
  by_cases hname : name ∈ split
  · exact Or.inl hname
  · obtain ⟨c, hc, hkey⟩ := exists_own_of_value_ne_zero he hreads hname hvalue
    rcases variable_cases he hc (isVariable_of_own hkey) with
      ⟨y, -, rfl⟩ | ⟨y, -, rfl⟩ | ⟨hno, -⟩
    · cases hkey
    · cases hkey
    · exact Or.inr (own_spec hkey ▸ hno)

/-- A variable that is not split has no negative value. -/
theorem value_nonneg (hx : e.Feasible x) (hreads : sol.ReadsOff e.columns x cost) (hname : name ∉ split) :
    0 ≤ sol.value name := by
  rw [value_of_not_split he hreads hname]
  cases hplace : place? own? e.columns (some name) with
  | none => exact le_rfl
  | some j =>
    obtain ⟨c, hj, -⟩ := place?_spec hplace
    exact hx.nonneg j (List.getElem?_eq_some_iff.mp hj).1

end Equations

end Assignment

end ExactLP
