import ExactLP.Proofs.Search.Feasibility
import ExactLP.Proofs.Standard.Parts

/-!
# Proofs.Search.Names — the columns of a search beside the names of its problem

The columns of a relaxation are named from several sources: the names of the problem, the parts of the variables
that are split, the conditions, and the auxiliaries of the rows.  What keeps them apart is a check of reserved
names, the form of the generated names, and the check that no two columns have one name.

* `Problem.Splits`, `Problem.Placed`: the variables that are split, and those that have columns of their own.
* `Row.coefficient_split`, `Row.coefficient_tighten`, …: a name that is neither split nor a part keeps its
  coefficient, so its column is there.
* `Apart`, `columns_apart`: which names the generated columns do not take.
* `columns_captured`: which they may take.
-/

namespace ExactLP

variable {terms : Terms} {r : Row} {split integral : List String} {name : String} {problem : Problem}
  {options : SearchOptions}

/-! ## Definitions -/

section Defs

namespace Problem

/-- The names of the declarations and of the operands. -/
def constrained (p : Problem) : List String :=
  p.binary ++ p.integer ++ p.unrestricted ++ p.constraints.flatMap fun c => c.operands.flatMap Row.names

/-- The variable is replaced by its parts. -/
def Splits (p : Problem) (x : String) : Prop := x ∈ p.unrestricted ∧ x ∉ p.binary

/-- The name is neither that of a variable that is split nor that of a part. -/
def Keeps (p : Problem) (name : String) : Prop :=
  ¬p.Splits name ∧ ∀ x, p.Splits x → name ≠ positivePart x ∧ name ≠ negativePart x

/-- The variable has a column: it occurs in the objective or in a plain row, or is a binary with a bound. -/
inductive Placed (p : Problem) (options : SearchOptions) (name : String) : Prop
  | objective : name ∈ p.objective.names → Placed p options name
  | plain {row : Row} : .plain row ∈ p.constraints → row.terms.coefficient name ≠ 0 → Placed p options name
  | bounded : options.boundBinaries = true → name ∈ p.binary → Placed p options name

end Problem

/-- The column is that of a part. -/
def Role.isPart : Role → Bool
  | positivePart _ | negativePart _ => true
  | _ => false

theorem Role.isVariable_of_isPart {r : Role} (h : r.isPart = true) : r.isVariable = true := by
  cases r with
  | positivePart _ | negativePart _ => rfl
  | _ => cases h

/-- The names that the columns `e` for a problem do not take. -/
structure Apart (problem : Problem) (options : SearchOptions) (e : Equations) : Prop where
  names_nodup : (e.columns.map Column.name).Nodup
  /-- Names that occur in the objective alone are not looked at. -/
  condition : ∀ c ∈ e.columns, c.role = .condition → c.name ∉ problem.constrained ∧
    ∀ x, problem.Splits x → c.name ≠ positivePart x ∧ c.name ≠ negativePart x
  positive : ∀ c ∈ e.columns, ∀ origin, c.role = .positivePart origin →
    ∃ x, problem.Splits x ∧ origin = some x ∧ c.name = positivePart x
  negative : ∀ c ∈ e.columns, ∀ origin, c.role = .negativePart origin →
    ∃ x, problem.Splits x ∧ origin = some x ∧ c.name = negativePart x
  part : (∀ x, problem.Splits x → positivePart x ∉ problem.callers ∧ negativePart x ∉ problem.callers) →
    ∀ c ∈ e.columns, c.role.isPart = true → c.name ∉ problem.callers
  auxiliary : ∀ c ∈ e.columns, c.role.isVariable = false →
    ∀ v ∈ e.columns, v.role.isVariable = true → c.name ≠ v.name
  placed : ∀ name, problem.Placed options name → problem.Keeps name →
    ∃ v ∈ e.columns, v.role.isVariable = true ∧ v.name = name

end Defs

/-! ## Coefficients of names that are kept -/

section Coefficients

namespace Terms

theorem coefficient_nonzero (hnd : terms.names.Nodup) (name : String) :
    terms.nonzero.coefficient name = terms.coefficient name := by
  induction terms with
  | nil => rfl
  | cons p rest ih =>
    rw [Keyed.names, List.map_cons, List.nodup_cons] at hnd
    rw [coefficient_cons]
    by_cases hp : p.2 = 0
    · rw [show nonzero (p :: rest) = nonzero rest by simp [nonzero, hp], ih hnd.2]
      split
      · rename_i heq
        rw [hp, coefficient_of_not_mem (heq ▸ hnd.1)]
      · rfl
    · rw [show nonzero (p :: rest) = p :: nonzero rest by simp [nonzero, hp], coefficient_cons, ih hnd.2]

theorem coefficient_scale (terms : Terms) (q : Rat) (name : String) :
    (terms.scale q).coefficient name = terms.coefficient name * q := by
  induction terms with
  | nil => exact (zero_mul q).symm
  | cons p rest ih =>
    rw [show scale (p :: rest) q = (p.1, p.2 * q) :: scale rest q from rfl, coefficient_cons, coefficient_cons, ih]
    split <;> rfl

/-- Splitting leaves the coefficient of a name that is neither split nor a part. -/
theorem coefficient_split (hnd : terms.names.Nodup) (h : Whole split name) :
    (terms.split split).coefficient name = terms.coefficient name := by
  rw [split_eq_foldl]
  suffices hgen : ∀ result : Terms, (terms.foldl (splitStep split) result).coefficient name =
      if name ∈ terms.names then terms.coefficient name else result.coefficient name by
    rw [hgen]
    split
    · rfl
    · rename_i hno
      rw [coefficient_of_not_mem hno]
      rfl
  have hstep : ∀ (result : Terms) (p : String × Rat), (splitStep split result p).coefficient name =
      if p.1 = name then p.2 else result.coefficient name := by
    intro result p
    unfold splitStep
    split
    · rename_i hsplit
      obtain ⟨hpos, hneg⟩ := h.unsplit name (List.mem_singleton_self name) p.1 hsplit
      have hne : p.1 ≠ name := fun heq => h.not_mem (heq ▸ hsplit)
      rw [coefficient_put, if_neg hneg.symm, coefficient_put, if_neg hpos.symm, if_neg hne]
    · exact coefficient_put _ _ _ _
  induction terms with
  | nil => exact fun result => rfl
  | cons p rest ih =>
    rw [Keyed.names, List.map_cons, List.nodup_cons] at hnd
    intro result
    rw [List.foldl_cons, ih hnd.2, hstep, coefficient_cons]
    by_cases hp : p.1 = name
    · rw [if_pos hp, if_pos hp, if_neg (hp ▸ hnd.1), if_pos (hp ▸ List.mem_cons_self)]
    · rw [if_neg hp, if_neg hp]
      refine if_congr ?_ rfl rfl
      exact (or_iff_right (Ne.symm hp)).symm.trans List.mem_cons.symm

end Terms

namespace Row

theorem mem_names_of_coefficient (h : r.terms.coefficient name ≠ 0) : name ∈ r.names := by
  by_contra hno
  exact h (Terms.coefficient_of_not_mem hno)

theorem coefficient_of (hnd : terms.names.Nodup) (cmp : Comparator) (rhs : Rat) (label : Option String) :
    (of terms cmp rhs label).terms.coefficient name = terms.coefficient name :=
  Terms.coefficient_nonzero hnd name

theorem coefficient_split (hnd : r.names.Nodup) (h : Whole split name) :
    (r.split split).terms.coefficient name = r.terms.coefficient name := by
  unfold Row.split
  split
  · exact (coefficient_of (Terms.nodup_split _ _) _ _ _).trans (Terms.coefficient_split hnd h)
  · rfl

theorem coefficient_tighten (hnd : r.names.Nodup) :
    (r.tighten integral).terms.coefficient name = r.terms.coefficient name := by
  unfold tighten
  split
  · split
    · exact coefficient_of hnd _ _ _
    · exact coefficient_of hnd _ _ _
  · rfl

theorem coefficient_normalized (hnd : r.names.Nodup) (h : r.terms.coefficient name ≠ 0) :
    r.normalized.terms.coefficient name ≠ 0 := by
  unfold normalized
  split
  · rw [mirrored, coefficient_of (Terms.nodup_scale hnd _), Terms.coefficient_scale]
    exact mul_ne_zero h (by norm_num)
  · exact h

end Row

end Coefficients

/-! ## The columns of the root -/

section Columns

variable {form : StandardForm} {constraints : List Constraint} {binary integer unrestricted : List String}
  {derived : List Row} {splitting : Bool} {x : String} {b : Search} {e : Equations}

theorem StandardForm.MadeOf.mem_split_iff
    (h : form.MadeOf constraints binary integer unrestricted true derived) :
    x ∈ form.split ↔ x ∈ unrestricted ∧ x ∉ binary := by
  rw [h.split_eq, if_pos rfl, List.mem_filter]
  simp

/-- A plain row stands in the standard form, over parts and tightened. -/
theorem StandardForm.MadeOf.mem_rows_of_plain
    (h : form.MadeOf constraints binary integer unrestricted splitting derived) (hr : .plain r ∈ constraints) :
    (r.split form.split).tighten (integralNames binary integer form.split) ∈ form.rows := by
  rw [h.rows_eq]
  have hsplit : .plain (r.split form.split) ∈ splitConstraints constraints form.split :=
    List.mem_map.mpr ⟨.plain r, hr, rfl⟩
  exact List.mem_append_left _ (List.mem_map_of_mem (List.mem_filterMap.mpr ⟨_, hsplit, rfl⟩))

namespace Search

/-- The columns of the variables that are placed. -/
theorem exists_column_of_placed (hp : problem.Keyed) (hprepare : prepare problem options = .ok b)
    (he : b.equations [] = .ok e) (hplaced : problem.Placed options name) (hkeeps : problem.Keeps name) :
    ∃ v ∈ e.columns, v.role.isVariable = true ∧ v.name = name := by
  obtain ⟨hprepared, rfl, rfl⟩ := prepared_of_prepare hp hprepare
  obtain ⟨hform, hbinary, -⟩ := prepare_ok hprepare
  obtain ⟨derived, hmade⟩ := exists_madeOf hform
  have hwhole : Whole b.form.split name := by
    refine ⟨fun hsplit => hkeeps.1 (hmade.mem_split_iff.mp hsplit), List.forall_mem_singleton.mpr ?_⟩
    exact fun x hx => hkeeps.2 x (hmade.mem_split_iff.mp hx)
  obtain ⟨unknowns, aux, h⟩ := Equations.exists_laidOut he
  suffices hname : name ∈ unknowns by
    obtain ⟨v, hv, hvname, hvar⟩ := h.exists_variable hname
    exact ⟨v, hv, hvar, hvname⟩
  rw [h.mem_unknowns]
  cases hplaced with
  | objective hname =>
    left
    rw [hprepared.objective_eq]
    exact Terms.mem_names_split hname (hwhole.partsOf ▸ List.mem_singleton_self name)
  | @plain row hrow hcoefficient =>
    have hnd : row.names.Nodup := hp.constraints _ hrow row List.mem_cons_self
    have hmem := hmade.mem_rows_of_plain hrow
    have hnd' := Row.nodup_names_split hnd b.form.split
    refine Or.inr ⟨_, List.mem_map_of_mem (List.mem_append_left _ (List.mem_append_left _ hmem)), ?_⟩
    refine Row.mem_names_of_coefficient (Row.coefficient_normalized (Row.nodup_names_tighten hnd' _) ?_)
    rwa [Row.coefficient_tighten hnd', Row.coefficient_split hnd hwhole]
  | bounded hbounds hname =>
    have hrow : Row.of [(name, 1)] .le 1 none ∈ b.binaryRows := by
      rw [binaryRows, if_pos hbounds]
      refine List.mem_map_of_mem ?_
      rw [hbinary, mem_firstOccurrences]
      exact List.mem_append_left _ hname
    refine Or.inr ⟨_, List.mem_map_of_mem (List.mem_append_left _ (List.mem_append_right _ hrow)), ?_⟩
    exact List.mem_singleton_self name

/-- A condition has a name that the declarations and the operands do not use, and that is no part. -/
theorem condition_unused (hp : problem.Keyed) (hprepare : prepare problem options = .ok b)
    (hname : name ∈ b.form.condition) : name ∉ problem.constrained ∧
      ∀ x, problem.Splits x → name ≠ positivePart x ∧ name ≠ negativePart x := by
  obtain ⟨hform, -, -⟩ := prepare_ok hprepare
  obtain ⟨derived, hmade⟩ := exists_madeOf hform
  constructor
  · exact fun hmem => not_reserved_of_isEmpty hmade.none_reserved hmem ((hmade.tidy hp.constraints).2 name hname)
  · exact fun x hx => hmade.condition_ne_part hp.constraints hname x (hmade.mem_split_iff.mpr hx)

/-- The columns of variables at the root: parts of the variables that are split, conditions, and others. -/
inductive Stands (problem : Problem) (b : Search) : Column → Prop
  | positive {x : String} : problem.Splits x →
      Stands problem b ⟨positivePart x, .positivePart (some x), false, false⟩
  | negative {x : String} : problem.Splits x →
      Stands problem b ⟨negativePart x, .negativePart (some x), false, false⟩
  | condition {name : String} : name ∈ b.form.condition → Stands problem b ⟨name, .condition, false, false⟩
  | decision {name : String} : Stands problem b ⟨name, .decision, false, false⟩

theorem stands_of_isVariable {c : Column} (hprepare : prepare problem options = .ok b) (he : b.equations [] = .ok e)
    (hc : c ∈ e.columns) (hvar : c.role.isVariable = true) : Stands problem b c := by
  obtain ⟨hform, -, -⟩ := prepare_ok hprepare
  obtain ⟨derived, hmade⟩ := exists_madeOf hform
  rcases Equations.variable_cases he hc hvar with ⟨x, hx, rfl⟩ | ⟨x, hx, rfl⟩ | ⟨-, hcol⟩
  · exact .positive (hmade.mem_split_iff.mp hx)
  · exact .negative (hmade.mem_split_iff.mp hx)
  · rw [hcol]
    split
    · rename_i hmem
      exact .condition (List.contains_iff_mem.mp hmem)
    · exact .decision

/-- At the root no two columns have one name, and the generated columns leave certain names to the problem. -/
theorem columns_apart (hp : problem.Keyed) (hprepare : prepare problem options = .ok b)
    (he : b.equations [] = .ok e) : Apart problem options e := by
  obtain ⟨unknowns, aux, h⟩ := Equations.exists_laidOut he
  have hstands : ∀ c ∈ e.columns, c.role.isVariable = true → Stands problem b c :=
    fun c hc => stands_of_isVariable hprepare he hc
  refine ⟨h.names_nodup, ?_, ?_, ?_, ?_, ?_, ?_⟩
  · intro c hc hrole
    cases hstands c hc (by rw [hrole]; rfl) with
    | condition hname => exact condition_unused hp hprepare hname
    | positive _ | negative _ | decision => cases hrole
  · intro c hc origin hrole
    cases hstands c hc (by rw [hrole]; rfl) with
    | positive hx => exact ⟨_, hx, (Role.positivePart.inj hrole).symm, rfl⟩
    | negative _ | condition _ | decision => cases hrole
  · intro c hc origin hrole
    cases hstands c hc (by rw [hrole]; rfl) with
    | negative hx => exact ⟨_, hx, (Role.negativePart.inj hrole).symm, rfl⟩
    | positive _ | condition _ | decision => cases hrole
  · intro hfree c hc hpart
    cases hstands c hc (Role.isVariable_of_isPart hpart) with
    | positive hx => exact (hfree _ hx).1
    | negative hx => exact (hfree _ hx).2
    | condition _ | decision => cases hpart
  · intro c hc haux v hv hvar hname
    exact h.name_not_mem_unknowns hc haux (hname ▸ h.name_mem_unknowns hv hvar)
  · exact fun name hplaced hkeeps => exists_column_of_placed hp hprepare he hplaced hkeeps

/-- The names and the roles of the columns at the root. -/
def columns? (problem : Problem) (options : SearchOptions) : Option (List (String × Role)) :=
  match prepare problem options with
  | .ok b =>
    match b.equations [] with
    | .ok e => some (e.columns.map fun c => (c.name, c.role))
    | .error _ => none
  | .error _ => none

theorem exists_of_columns? {columns : List (String × Role)} (h : columns? problem options = some columns) :
    ∃ b e, prepare problem options = .ok b ∧ b.equations [] = .ok e ∧
      (e.columns.map fun c => (c.name, c.role)) = columns := by
  unfold columns? at h
  split at h
  · rename_i b hb
    split at h
    · rename_i e he
      exact ⟨b, e, hb, he, Option.some.inj h⟩
    · cases h
  · cases h

/-- Maximize `x + y` for an `x` of either sign and a binary `y`, where `x <= 2` or `x + y <= 1`. -/
def apartProblem : Problem where
  goal := .maximize
  objective := [("x", 1), ("y", 1)]
  constraints := [.plain ⟨[("x", 1)], .le, 3, some "top"⟩,
    .joined .or ⟨[("x", 1)], .le, 2, none⟩ ⟨[("x", 1), ("y", 1)], .le, 1, none⟩]
  binary := ["y"]
  unrestricted := ["x"]

theorem columns_apart_sample :
    ∃ b e, prepare apartProblem { tieBreak := .first } = .ok b ∧ b.equations [] = .ok e ∧
      (e.columns.map fun c => (c.name, c.role)) =
        [("x+", .positivePart (some "x")), ("x-", .negativePart (some "x")), ("y", .decision), ("_y0", .condition),
          ("s_top", .surplus (some "top")), ("s_2", .surplus (some "2")), ("s_3", .surplus (some "3")),
          ("s_4", .surplus (some "4")), ("s_5", .surplus (some "5"))] ∧
      Apart apartProblem { tieBreak := .first } e := by
  have hcolumns : columns? apartProblem { tieBreak := .first } =
      some [("x+", .positivePart (some "x")), ("x-", .negativePart (some "x")), ("y", .decision), ("_y0", .condition),
        ("s_top", .surplus (some "top")), ("s_2", .surplus (some "2")), ("s_3", .surplus (some "3")),
        ("s_4", .surplus (some "4")), ("s_5", .surplus (some "5"))] := by
    decide +kernel
  obtain ⟨b, e, hprepare, he, hcolumns⟩ := exists_of_columns? hcolumns
  exact ⟨b, e, hprepare, he, hcolumns, columns_apart ⟨by decide, by decide⟩ hprepare he⟩

/-- Maximize `x + x+ + _y0` for an `x` of either sign, where `z >= 1` or `w >= 1`, with an integer `s_1`. -/
def capturedProblem : Problem where
  goal := .maximize
  objective := [("x", 1), ("x+", 1), ("_y0", 1)]
  constraints := [.plain ⟨[("x+", 1)], .le, 4, none⟩, .plain ⟨[("x", 1)], .le, 1, none⟩,
    .joined .or ⟨[("z", 1)], .ge, 1, none⟩ ⟨[("w", 1)], .ge, 1, none⟩]
  integer := ["s_1"]
  unrestricted := ["x"]

/-- A part, a condition and an auxiliary with names of the problem: the added part of `x`, a condition that occurs
in the objective, and the surplus of the first row. -/
theorem columns_captured :
    ∃ b e, prepare capturedProblem { tieBreak := .first } = .ok b ∧ b.equations [] = .ok e ∧
      (∃ c ∈ e.columns, c.role = .positivePart (some "x") ∧ c.name ∈ capturedProblem.callers) ∧
      (∃ c ∈ e.columns, c.role = .condition ∧ c.name ∈ capturedProblem.callers) ∧
      ∃ c ∈ e.columns, c.role = .surplus (some "1") ∧ c.name ∈ capturedProblem.callers := by
  have hcolumns : (columns? capturedProblem { tieBreak := .first }).map (fun columns =>
      [("x+", .positivePart (some "x")), ("_y0", .condition), ("s_1", .surplus (some "1"))].all columns.contains) =
        some true := by
    decide +kernel
  obtain ⟨columns, hsome, hall⟩ := Option.map_eq_some_iff.mp hcolumns
  obtain ⟨b, e, hprepare, he, rfl⟩ := exists_of_columns? hsome
  have hfound : ∀ {name : String} {role : Role}, (name, role) ∈ (e.columns.map fun c => (c.name, c.role)) →
      name ∈ capturedProblem.callers → ∃ c ∈ e.columns, c.role = role ∧ c.name ∈ capturedProblem.callers := by
    intro name role hmem hname
    obtain ⟨c, hc, heq⟩ := List.mem_map.mp hmem
    obtain ⟨rfl, rfl⟩ := Prod.mk.inj heq
    exact ⟨c, hc, rfl, hname⟩
  simp only [List.all_cons, List.all_nil, Bool.and_true, Bool.and_eq_true, List.contains_iff_mem] at hall
  obtain ⟨hpart, hcondition, hauxiliary⟩ := hall
  exact ⟨b, e, hprepare, he, hfound hpart (by decide), hfound hcondition (by decide),
    hfound hauxiliary (by decide)⟩

end Search

end Columns

end ExactLP
