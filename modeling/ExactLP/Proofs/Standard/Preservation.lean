import ExactLP.Proofs.Equations.Projection
import ExactLP.Proofs.Standard.Compile
import ExactLP.Proofs.Standard.Integral
import Mathlib.Algebra.Order.Group.MinMax

/-!
# Proofs.Standard.Preservation — the equations allow what the caller's rows allow

Plain rows are brought to standard form and then to equations: unrestricted variables are split, strict rows over
integers are tightened, right sides are turned nonnegative, and every row gets its auxiliaries.  Where no name
of the caller is that of a part, none of this changes which assignments are allowed.

* `partValues`: the parts of an assignment, which `joinParts` puts together again.
* `holds_standardRow`: a row of the standard form over parts.
* `equations_preserve`: the equations start from an identity, and their feasible points are the caller's
  assignments.
-/

namespace ExactLP

variable {rows : List Row} {row : Row} {binary integer unrestricted split names objective : List String}
  {splitting : Bool} {form : StandardForm} {internalFrom : Option Int} {e : Equations} {v z : Assignment}
  {name : String}

/-- The caller's names hold those that are declared and those that are split, and none is that of a part. -/
structure Callers (names binary integer split : List String) : Prop where
  unsplit : Unsplit split names
  split_mem : ∀ x ∈ split, x ∈ names
  declared_mem : ∀ name ∈ binary ++ integer, name ∈ names

/-- The assignment is integral where it must be, and not negative on names that are not split. -/
structure Respects (names binary integer split : List String) (v : Assignment) : Prop where
  integral : ∀ name ∈ binary ++ integer, v name ∈ integers
  nonneg : ∀ name ∈ names, name ∉ split → 0 ≤ v name

/-! ## Parts of an assignment -/

section Parts

/-- The nonnegative parts of an assignment. -/
def partValues (split : List String) (v : Assignment) : Assignment :=
  ofParts split (fun x => max (v x) 0) (fun x => max (-v x) 0) fun name => max (v name) 0

theorem partValues_nonneg (split : List String) (v : Assignment) (name : String) : 0 ≤ partValues split v name :=
  ofParts_nonneg (fun _ _ => le_max_right _ _) (fun _ _ => le_max_right _ _) (le_max_right _ _)

/-- The parts stand for the assignment that they are made from. -/
theorem joinParts_partValues (h : Callers names binary integer split) (hv : Respects names binary integer split v)
    (hname : name ∈ names) : joinParts split (partValues split v) name = v name := by
  rw [partValues, joinParts_ofParts (h.unsplit name hname)]
  split
  · exact max_zero_sub_max_neg_zero_eq_self (v name)
  · rename_i hno
    exact max_eq_left (hv.nonneg name hname hno)

theorem max_zero_mem_integers {q : Rat} (h : q ∈ integers) : max q 0 ∈ integers := by
  rcases max_choice q 0 with heq | heq
  · rwa [heq]
  · rw [heq]
    exact zero_mem _

/-- The parts of integers are integers. -/
theorem partValues_mem_integers (h : Callers names binary integer split) (hv : Respects names binary integer split v)
    (hname : name ∈ integralNames binary integer split) : partValues split v name ∈ integers := by
  unfold partValues
  rcases mem_integralNames (fun x hx => h.unsplit x (h.split_mem x hx)) hname with hown | ⟨x, hx, hint, rfl | rfl⟩
  · rw [ofParts_of_ne (h.unsplit name (h.declared_mem name hown))]
    exact max_zero_mem_integers (hv.integral name hown)
  · rw [ofParts_positivePart hx]
    exact max_zero_mem_integers (hv.integral x hint)
  · rw [ofParts_negativePart hx]
    exact max_zero_mem_integers (neg_mem (hv.integral x hint))

end Parts

/-! ## Rows of the standard form -/

section Rows

/-- A row of the standard form says of parts what the caller's row says of the assignment that they stand for,
when a row that is not tightened is read as inclusive. -/
theorem holds_standardRow (hnd : row.names.Nodup) (hrow : ∀ name ∈ row.names, name ∈ names)
    (h : Callers names binary integer split) (hv : Respects names binary integer split v)
    (hz : ∀ name ∈ names, v name = joinParts split z name) :
    ((row.split split).tighten (integralNames binary integer split)).HoldsInclusive z ↔
      row.HoldsAs ((row.split split).isTightened (integralNames binary integer split)) v := by
  have hunsplit : Unsplit split row.names := fun name hname => h.unsplit name (hrow name hname)
  have hjoin : row.terms.eval (joinParts split z) = row.terms.eval v :=
    Terms.eval_congr fun name hname => (hz name (hrow name hname)).symm
  rw [Row.holdsInclusive_tighten]
  · unfold Row.HoldsAs
    rw [Row.holds_split hnd hunsplit, Row.holdsInclusive_split hnd hunsplit, Row.Holds, Row.Holds,
      Row.HoldsInclusive, Row.HoldsInclusive, hjoin]
  · -- `z` need not be integral on the parts, but other parts that stand for the same assignment are
    intro htight
    have hparts : row.terms.eval (joinParts split (partValues split v)) = row.terms.eval v :=
      Terms.eval_congr fun name hname => joinParts_partValues h hv (hrow name hname)
    rw [Row.eval_split hnd hunsplit, hjoin, ← hparts, ← Row.eval_split hnd hunsplit]
    exact Row.eval_mem_integers (Bool.and_eq_true _ _ ▸ htight).2 fun name => partValues_mem_integers h hv

theorem plainRows_splitConstraints (rows : List Row) (split : List String) :
    plainRows (splitConstraints (rows.map .plain) split) = rows.map fun r => r.split split := by
  induction rows with
  | nil => rfl
  | cons row rest ih => exact congrArg (row.split split :: ·) ih

/-- Plain rows leave nothing to compile. -/
theorem Compiler.compileAll_plain (k : Compiler) (index : Int) (rows : List Row) (s : List String) :
    (k.compileAll index (rows.map .plain)).run s = (.ok [], s) := by
  induction rows with
  | nil => rfl
  | cons row rest ih => exact ih

/-- The standard form of plain rows. -/
theorem rows_of_standardize (h : standardize (rows.map .plain) binary integer unrestricted splitting = .ok form) :
    (form.rows = rows.map fun r => (r.split form.split).tighten (integralNames binary integer form.split)) ∧
      ∀ x ∈ form.split, x ∈ unrestricted := by
  obtain ⟨derived, hmade⟩ := exists_madeOf h
  have hrun := hmade.run_eq
  have hplain : splitConstraints (rows.map .plain) form.split =
      (rows.map fun r => r.split form.split).map .plain := by
    rw [splitConstraints, List.map_map, List.map_map]
    rfl
  rw [hplain, Compiler.compileAll_plain] at hrun
  obtain rfl := Except.ok.inj (Prod.mk.inj hrun).1
  refine ⟨?_, fun x hx => (hmade.mem_of_split hx).1⟩
  rw [hmade.rows_eq, tightenedRows, plainRows_splitConstraints, List.map_map, List.append_nil]
  rfl

end Rows

/-! ## Preservation -/

section Preservation

/-- Rows over an integer `x` of either sign, an integer `y` and a real `w`. -/
def sampleRows : List Row :=
  [⟨[("x", 2), ("y", 1)], .lt, 5 / 2, none⟩, ⟨[("w", 1), ("x", -1)], .gt, -3, none⟩,
    ⟨[("y", 1), ("w", 1)], .eq, 2, none⟩]

/-- Their standard form.  The first row is tightened and the second is not, since `w` is no integer. -/
def sampleForm : StandardForm where
  rows := [⟨[("x+", 2), ("x-", -2), ("y", 1)], .le, 2, none⟩, ⟨[("w", 1), ("x+", -1), ("x-", 1)], .gt, -3, none⟩,
    ⟨[("y", 1), ("w", 1)], .eq, 2, none⟩]
  split := ["x"]

/-- The equations of plain rows start from nonnegative right sides and an identity, and where no name of the
caller is that of a part, an assignment that is integral where it must be and nonnegative where it is not split
satisfies the rows exactly when it is read back from a feasible point. -/
theorem equations_preserve (hkeyed : ∀ row ∈ rows, row.names.Nodup)
    (hstandard : standardize (rows.map .plain) binary integer unrestricted splitting = .ok form)
    (hequations : Equations.ofRows objective form.rows form.condition form.split internalFrom = .ok e)
    (hnames : ∀ name ∈ rows.flatMap Row.names ++ binary ++ integer ++ unrestricted, name ∈ names)
    (hunsplit : Unsplit form.split names) :
    e.Based ∧ ∀ v : Assignment, (∀ name ∈ binary ++ integer, (v name).den = 1) →
      (∀ name ∈ names, name ∉ form.split → 0 ≤ v name) →
      ((∀ row ∈ rows,
          row.HoldsAs ((row.split form.split).isTightened (integralNames binary integer form.split)) v) ↔
        ∃ z x, (∀ name, 0 ≤ z name) ∧ e.Feasible x ∧ e.Gives x z ∧
          ∀ name ∈ names, v name = joinParts form.split z name) := by
  refine ⟨Equations.based_of_ofRows hequations, ?_⟩
  intro v hint hnn
  obtain ⟨hrows, hsplit⟩ := rows_of_standardize hstandard
  simp only [List.forall_mem_append] at hnames
  obtain ⟨⟨⟨hused, hbinary⟩, hinteger⟩, hunrestricted⟩ := hnames
  have hcallers : Callers names binary integer form.split :=
    ⟨hunsplit, fun x hx => hunrestricted x (hsplit x hx), List.forall_mem_append.mpr ⟨hbinary, hinteger⟩⟩
  have hrespects : Respects names binary integer form.split v :=
    ⟨fun name hname => mem_integers_iff.mpr (hint name hname), hnn⟩
  have hnd : ∀ row ∈ form.rows, row.names.Nodup := by
    rw [hrows]
    exact List.forall_mem_map.mpr fun r hr =>
      Row.nodup_names_tighten (Row.nodup_names_split (hkeyed r hr) _) _
  have hstandardRow : ∀ z : Assignment, (∀ name ∈ names, v name = joinParts form.split z name) →
      ((∀ row ∈ form.rows, row.HoldsInclusive z) ↔ ∀ row ∈ rows,
        row.HoldsAs ((row.split form.split).isTightened (integralNames binary integer form.split)) v) := by
    intro z hz
    rw [hrows, List.forall_mem_map]
    exact forall₂_congr fun row hrow => holds_standardRow (hkeyed row hrow)
      (fun name hname => hused name (List.mem_flatMap.mpr ⟨row, hrow, hname⟩)) hcallers hrespects hz
  constructor
  · intro hall
    have hjoin : ∀ name ∈ names, v name = joinParts form.split (partValues form.split v) name :=
      fun name hname => (joinParts_partValues hcallers hrespects hname).symm
    obtain ⟨x, hx, hgives⟩ := (Equations.feasible_iff hequations hnd (partValues form.split v)).mpr
      ⟨fun name _ => partValues_nonneg _ _ _, (hstandardRow _ hjoin).mpr hall⟩
    exact ⟨_, x, partValues_nonneg _ _, hx, hgives, hjoin⟩
  · rintro ⟨z, x, -, hx, hgives, hjoin⟩
    exact (hstandardRow z hjoin).mp ((Equations.feasible_iff hequations hnd z).mp ⟨x, hx, hgives⟩).2

theorem equations_preserve_sample : ∃ e,
    standardize (sampleRows.map .plain) [] ["x", "y"] ["x"] true = .ok sampleForm ∧
      Equations.ofRows [] sampleForm.rows sampleForm.condition sampleForm.split none = .ok e ∧ e.Based ∧
      ∀ v : Assignment, (v "x").den = 1 → (v "y").den = 1 → 0 ≤ v "y" → 0 ≤ v "w" →
        ((∀ row ∈ sampleRows, row.HoldsAs (row.cmp = .lt) v) ↔ ∃ z x, (∀ name, 0 ≤ z name) ∧ e.Feasible x ∧
          e.Gives x z ∧ v "x" = z (positivePart "x") - z (negativePart "x") ∧ v "y" = z "y" ∧ v "w" = z "w") := by
  have hstandard : standardize (sampleRows.map .plain) [] ["x", "y"] ["x"] true = .ok sampleForm := by
    decide +kernel
  have hok : (Equations.ofRows [] sampleForm.rows sampleForm.condition sampleForm.split none).isOk = true := by
    decide +kernel
  have htight : ∀ row ∈ sampleRows,
      (row.split sampleForm.split).isTightened (integralNames [] ["x", "y"] sampleForm.split) =
        decide (row.cmp = .lt) := by
    decide +kernel
  cases hequations : Equations.ofRows [] sampleForm.rows sampleForm.condition sampleForm.split none with
  | error f =>
    rw [hequations] at hok
    cases hok
  | ok e =>
    have hkeyed : ∀ row ∈ sampleRows, row.names.Nodup := by decide
    have hunsplit : Unsplit sampleForm.split ["x", "y", "w"] := by decide
    obtain ⟨hbased, hpreserve⟩ := equations_preserve hkeyed hstandard hequations (by decide) hunsplit
    refine ⟨e, hstandard, rfl, hbased, ?_⟩
    intro v hx hy hynn hwnn
    have hiff := hpreserve v (by simp [hx, hy]) (by simp [sampleForm, hynn, hwnn])
    rw [forall₂_congr fun row hrow => by rw [htight row hrow]] at hiff
    simpa [sampleForm, joinParts] using hiff

end Preservation

end ExactLP
