import ExactLP.Proofs.Equations.Layout
import ExactLP.Proofs.Model.Rows
import ExactLP.Proofs.Solution

/-!
# Proofs.Equations.Labels — the auxiliary that a row is reported by

A row is reported under its label: its own name, or its place where it has none.  What is reported is read off the
first auxiliary of the row, the surplus, the excess or the pseudo column; rows that the solver added are left out.
The names of the columns tell the kind of an auxiliary as well as the label, so two rows may have one label.

* `Row.labelAt`, `Reported`: the label of a row, and whether it is reported.
* `LaidOut.label_spec`, `LaidOut.exists_label`: the columns that are read under labels.
* `ReportedLast`, `LaidOut.place?_label`: of the rows with one label the last one is read.
* `LaidOut.priceSign_ne`: no two rows that bound from above have one label, and no two of the others.
-/

namespace ExactLP

variable {e : Equations} {objective unknowns : List String} {rows : List Row} {internalFrom : Option Int}
  {i j k : Nat} {row row' : Row} {c : Column}

/-! ## Definitions -/

section Defs

/-- The label of the row at place `i`: its own name, or the place counted from 1. -/
def Row.labelAt (row : Row) (i : Nat) : String := row.label.getD (toString (i + 1))

theorem Row.labelAt_congr (h : row.label = row'.label) (i : Nat) : row.labelAt i = row'.labelAt i := by
  rw [labelAt, labelAt, h]

/-- The sign with which the price of a row counts: turned where the row does not bound from above. -/
def Comparator.priceSign : Comparator → Rat
  | lt | le => 1
  | eq | ge | gt => -1

theorem Comparator.priceSign_mul_self (cmp : Comparator) : cmp.priceSign * cmp.priceSign = 1 := by
  cases cmp <;> norm_num [priceSign]

namespace Equations

/-- Row `i` is reported: it comes before the rows that the solver added. -/
def Reported (internalFrom : Option Int) (i : Nat) : Prop := ∀ start ∈ internalFrom, (i : Int) < start

theorem reported_iff : Reported internalFrom i ↔ (internalFrom.any fun start => start ≤ (i : Int)) = false := by
  cases internalFrom <;> simp [Reported]

theorem reported_none (i : Nat) : Reported none i := fun _ hstart => nomatch hstart

/-- The row at place `i` is reported, and no later reported row has its label. -/
structure ReportedLast (rows : List Row) (internalFrom : Option Int) (i : Nat) (row : Row) : Prop where
  row_eq : rows[i]? = some row
  reported : Reported internalFrom i
  last : ∀ (k : Nat) (row' : Row), rows[k]? = some row' → Reported internalFrom k →
    row'.labelAt k = row.labelAt i → k ≤ i

theorem ReportedLast.map (h : ReportedLast rows internalFrom i row) {f : Row → Row}
    (hf : ∀ r : Row, (f r).label = r.label) : ReportedLast (rows.map f) internalFrom i (f row) where
  row_eq := by rw [List.getElem?_map, h.row_eq, Option.map_some]
  reported := h.reported
  last k row' hk hrep hlabel := by
    rw [List.getElem?_map] at hk
    obtain ⟨r, hr, rfl⟩ := Option.map_eq_some_iff.mp hk
    rw [Row.labelAt_congr (hf r), Row.labelAt_congr (hf row)] at hlabel
    exact h.last k r hr hrep hlabel

/-- Where all rows have labels of their own, every reported row is the last one with its label. -/
theorem reportedLast_of_nodup (hnd : (rows.mapIdx fun i row => row.labelAt i).Nodup) (hi : rows[i]? = some row)
    (hrep : Reported internalFrom i) : ReportedLast rows internalFrom i row := by
  refine ⟨hi, hrep, fun k row' hk _ hlabel => ?_⟩
  have hlt : k < (rows.mapIdx fun i row => row.labelAt i).length := by
    rw [List.length_mapIdx]
    exact (List.getElem?_eq_some_iff.mp hk).1
  refine ((List.getElem?_inj hlt hnd).mp ?_).le
  rw [List.getElem?_mapIdx, List.getElem?_mapIdx, hk, hi, Option.map_some, Option.map_some, hlabel]

/-- The position of the first auxiliary of row `i`. -/
def labelPosition (unknowns : List String) (aux : List (List (Column × Rat))) (i : Nat) : Nat :=
  unknowns.length + (blockStart aux i + 0)

end Equations

end Defs

/-! ## Labels of columns -/

namespace Equations

open Solution (label? place?)

section Columns

/-- The first auxiliary of a reported row has its label, and the other one has none. -/
theorem auxiliaries_first (cmp : Comparator) (label : String) (internal : Bool) :
    ∃ c rest, auxiliaries cmp label internal = (c, cmp.priceSign) :: rest ∧
      label? c = (if internal then none else some (some label)) ∧ (∀ p ∈ rest, label? p.1 = none) ∧
      (cmp ≠ .eq → c.role.isPseudo = false) := by
  have hartificial : ∀ p ∈ [((⟨s!"a_{label}", .artificial (some label), internal, false⟩, 1) : Column × Rat)],
      label? p.1 = none := by
    intro p hp
    rw [List.mem_singleton.mp hp]
    cases internal <;> rfl
  cases cmp
  case lt | le => exact ⟨_, [], rfl, by cases internal <;> rfl, fun p hp => absurd hp List.not_mem_nil, fun _ => rfl⟩
  case gt | ge => exact ⟨_, _, rfl, by cases internal <;> rfl, hartificial, fun _ => rfl⟩
  case eq => exact ⟨_, _, rfl, by cases internal <;> rfl, hartificial, fun hne => absurd rfl hne⟩

/-- The basic auxiliary of a row is named by its kind and the label. -/
theorem auxiliaries_basic (cmp : Comparator) (label : String) (internal : Bool) :
    ∃ (k : Nat) (c : Column) (q : Rat), (auxiliaries cmp label internal)[k]? = some (c, q) ∧
      c.name = (if cmp.priceSign = 1 then "s_" else "a_") ++ label := by
  cases cmp
  · exact ⟨0, _, _, rfl, by simp [Comparator.priceSign]; rfl⟩
  · exact ⟨0, _, _, rfl, by simp [Comparator.priceSign]; rfl⟩
  all_goals exact ⟨1, _, _, rfl, by norm_num [Comparator.priceSign]; rfl⟩

theorem label?_of_isVariable (h : c.role.isVariable = true) : label? c = none := by
  obtain ⟨name, role, internal, eliminated⟩ := c
  cases internal with
  | true => rfl
  | false =>
    cases role with
    | decision | condition | positivePart _ | negativePart _ => rfl
    | surplus _ | excess _ | pseudo _ | artificial _ => exact absurd h (by simp [Role.isVariable])

theorem getElem?_allAuxiliaries (hi : rows[i]? = some row) (internalFrom : Option Int) :
    (allAuxiliaries rows internalFrom)[i]? =
      some (auxiliaries row.cmp (row.labelAt i) (internalFrom.any fun start => start ≤ (i : Int))) := by
  rw [allAuxiliaries, List.getElem?_mapIdx, hi]
  rfl

end Columns

section Layout

variable (h : e.LaidOut objective rows unknowns (allAuxiliaries rows internalFrom))
include h

/-- The first auxiliary of a reported row has its label and stands in this row only. -/
theorem LaidOut.label_spec (hi : rows[i]? = some row) (hrep : Reported internalFrom i) :
    ∃ c, e.columns[labelPosition unknowns (allAuxiliaries rows internalFrom) i]? = some c ∧
      label? c = some (some (row.labelAt i)) ∧ c.name ∉ unknowns ∧
      ∀ (k : Nat) (line : List Rat), e.rows[k]? = some line →
        line.getD (labelPosition unknowns (allAuxiliaries rows internalFrom) i) 0 =
          if k = i then row.cmp.priceSign else 0 := by
  have haux := getElem?_allAuxiliaries hi internalFrom
  rw [reported_iff.mp hrep] at haux
  obtain ⟨c, rest, hfirst, hlabel, -⟩ := auxiliaries_first row.cmp (row.labelAt i) false
  rw [hfirst] at haux
  have hcol := h.getElem?_columns_auxiliary haux (k := 0) rfl
  refine ⟨c, hcol, hlabel, h.auxiliary_not_mem_unknowns hcol (Nat.le_add_right _ _), ?_⟩
  intro k line hline
  have hlt : k < rows.length := h.length_rows ▸ (List.getElem?_eq_some_iff.mp hline).1
  rw [Option.some.inj (hline.symm.trans (h.getElem?_rows (List.getElem?_eq_getElem hlt)))]
  exact equation_auxiliary unknowns k _ haux rfl

/-- The first auxiliary of a row that is no equality is no pseudo column. -/
theorem LaidOut.not_isPseudo_of_labelPosition (hi : rows[i]? = some row) (hcmp : row.cmp ≠ .eq)
    (hcol : e.columns[labelPosition unknowns (allAuxiliaries rows internalFrom) i]? = some c) :
    c.role.isPseudo = false := by
  have haux := getElem?_allAuxiliaries hi internalFrom
  obtain ⟨c', rest, hfirst, -, -, hpseudo⟩ := auxiliaries_first row.cmp (row.labelAt i)
    (internalFrom.any fun start => start ≤ (i : Int))
  rw [hfirst] at haux
  have hcol' := h.getElem?_columns_auxiliary haux (k := 0) rfl
  rw [Option.some.inj (hcol.symm.trans hcol')]
  exact hpseudo hcmp

/-- Only first auxiliaries of reported rows have labels. -/
theorem LaidOut.exists_label {key : Option String} (hj : e.columns[j]? = some c) (hlabel : label? c = some key) :
    ∃ i row, rows[i]? = some row ∧ Reported internalFrom i ∧ key = some (row.labelAt i) ∧
      j = labelPosition unknowns (allAuxiliaries rows internalFrom) i := by
  have hge : unknowns.length ≤ j := by
    by_contra hlt
    rw [label?_of_isVariable ((h.isVariable_iff hj).mpr (not_le.mp hlt))] at hlabel
    cases hlabel
  obtain ⟨i, row, label, internal, k, q, hrow, haux, hk, rfl⟩ := h.exists_auxiliary hj hge
  rw [Option.some.inj (haux.symm.trans (getElem?_allAuxiliaries hrow internalFrom))] at hk
  obtain ⟨c', rest, hfirst, hlabel', hrest, -⟩ := auxiliaries_first row.cmp (row.labelAt i)
    (internalFrom.any fun start => start ≤ (i : Int))
  rw [hfirst] at hk
  cases k with
  | zero =>
    obtain rfl : c' = c := congrArg Prod.fst (Option.some.inj hk)
    rw [hlabel] at hlabel'
    split at hlabel'
    · cases hlabel'
    · rename_i hrep
      exact ⟨i, row, hrow, reported_iff.mpr (Bool.eq_false_iff.mpr hrep), Option.some.inj hlabel', rfl⟩
  | succ k =>
    rw [List.getElem?_cons_succ] at hk
    rw [hrest _ (List.mem_of_getElem? hk)] at hlabel
    cases hlabel

/-- What is reported under a label is read off the last reported row that has it. -/
theorem LaidOut.place?_label (hlast : ReportedLast rows internalFrom i row) :
    place? label? e.columns (some (row.labelAt i)) =
      some (labelPosition unknowns (allAuxiliaries rows internalFrom) i) := by
  obtain ⟨c, hcol, hlabel, -⟩ := h.label_spec hlast.row_eq hlast.reported
  refine Solution.place?_eq_some hcol hlabel fun j c' hj hlabel' => ?_
  obtain ⟨k, row', hk, hrep, hkey, rfl⟩ := h.exists_label hj hlabel'
  have hki := hlast.last k row' hk hrep (Option.some.inj hkey).symm
  exact Nat.add_le_add_left (blockStart_mono hki) _

/-- The labels under which something is reported are those of the reported rows. -/
theorem LaidOut.exists_label_iff {key : Option String} : (∃ c ∈ e.columns, label? c = some key) ↔
    ∃ i row, rows[i]? = some row ∧ Reported internalFrom i ∧ key = some (row.labelAt i) := by
  constructor
  · rintro ⟨c, hc, hlabel⟩
    obtain ⟨j, hj⟩ := List.mem_iff_getElem?.mp hc
    obtain ⟨i, row, hi, hrep, hkey, -⟩ := h.exists_label hj hlabel
    exact ⟨i, row, hi, hrep, hkey⟩
  · rintro ⟨i, row, hi, hrep, rfl⟩
    obtain ⟨c, hcol, hlabel, -⟩ := h.label_spec hi hrep
    exact ⟨c, List.mem_of_getElem? hcol, hlabel⟩

/-- Of two rows with one label, one bounds from above and the other one does not. -/
theorem LaidOut.priceSign_ne (hi : rows[i]? = some row) (hk : rows[k]? = some row') (hik : i < k)
    (hlabel : row.labelAt i = row'.labelAt k) : row.cmp.priceSign ≠ row'.cmp.priceSign := by
  intro hsign
  obtain ⟨p, c, q, hp, hname⟩ := auxiliaries_basic row.cmp (row.labelAt i)
    (internalFrom.any fun start => start ≤ (i : Int))
  obtain ⟨p', c', q', hp', hname'⟩ := auxiliaries_basic row'.cmp (row'.labelAt k)
    (internalFrom.any fun start => start ≤ (k : Int))
  have haux := getElem?_allAuxiliaries hi internalFrom
  have hcol := h.getElem?_columns_auxiliary haux hp
  have hcol' := h.getElem?_columns_auxiliary (getElem?_allAuxiliaries hk internalFrom) hp'
  rw [← hlabel, ← hsign, ← hname] at hname'
  -- both columns are one, but the blocks of the rows do not meet
  have hplace := h.eq_of_name hcol hcol' hname'.symm
  have hbefore := blockStart_add_lt_blockStart haux (List.getElem?_eq_some_iff.mp hp).1 hik
  omega

end Layout

end Equations

end ExactLP
