import ExactLP.Proofs.Search.Feasibility

/-!
# Proofs.Search.Branching — the two branches part the integral assignments

A solution is branched on exactly where some value that must be integral is not.  Of the two branch rows every
integral assignment satisfies one and only one, and the point of the solution satisfies neither, so no integral
assignment is lost and no branch has the same solution again.

* `le_floor_iff_not_ceil_le`: a number that is no integer parts the integers.
* `PartsAround`: rows that part the integral assignments around a value of a variable.
* `exists_partsAround`: the rows of the variable that is branched on; `exists_point_of_fractional`: a point with its
  value.
* `selectBranch_parts`: the branches of a solution.
-/

namespace ExactLP

/-! ## Integers around a number -/

section Numbers

variable {q v : Rat}

theorem floor_lt_of_den_ne_one (hq : q.den ≠ 1) : ((q.floor : Int) : Rat) < q := by
  refine lt_of_le_of_ne (Rat.floor_le q) fun heq => hq ?_
  rw [← heq]
  rfl

theorem lt_ceil_of_den_ne_one (hq : q.den ≠ 1) : q < ((q.ceil : Int) : Rat) := by
  refine lt_of_le_of_ne Rat.le_ceil fun heq => hq ?_
  rw [heq]
  rfl

/-- An integer is below a number that is none, or above it, and not both. -/
theorem le_floor_iff_not_ceil_le (hq : q.den ≠ 1) (hv : v ∈ integers) :
    v ≤ ((q.floor : Int) : Rat) ↔ ¬((q.ceil : Int) : Rat) ≤ v := by
  obtain ⟨n, rfl⟩ := hv
  have hne : (n : Rat) ≠ q := by
    rintro rfl
    exact hq rfl
  rw [eq_intCast, Int.cast_le, Int.cast_le, Rat.le_floor_iff, Rat.ceil_le_iff, not_le]
  exact ⟨fun hle => lt_of_le_of_ne hle hne, le_of_lt⟩

end Numbers

namespace Search

variable {b : Search} {found : Solution} {name : String} {value : Rat} {first second : Row} {z : Assignment}

/-! ## Branch rows -/

section Rows

/-- Every integral assignment satisfies exactly one of the rows, and one that gives the variable the value satisfies
neither. -/
structure PartsAround (b : Search) (name : String) (value : Rat) (first second : Row) : Prop where
  exactly_one : ∀ z, b.IntegralAt (joinParts b.form.split z) → (first.Holds z ↔ ¬second.Holds z)
  neither : ∀ z, joinParts b.form.split z name = value → ¬first.Holds z ∧ ¬second.Holds z

theorem holds_of_single (cmp : Comparator) (rhs : Rat) (label : Option String) (z : Assignment) :
    (Row.of (b.single name) cmp rhs label).Holds z ↔ cmp.Holds (joinParts b.form.split z name) rhs := by
  rw [Row.holds_of, single, Terms.eval_split_single, one_mul]

/-- A binary is 0 or 1. -/
theorem partsAround_binary (hname : name ∈ b.binary) (hvalue : ¬IsBit value) (label label' : Option String) :
    b.PartsAround name value (Row.of (b.single name) .eq 0 label) (Row.of (b.single name) .eq 1 label') := by
  refine ⟨fun z hz => ?_, fun z hz => ?_⟩
  · rw [holds_of_single, holds_of_single]
    unfold Comparator.Holds
    rcases hz.binary name hname with hbit | hbit <;> rw [hbit] <;> decide
  · rw [holds_of_single, holds_of_single, hz]
    exact not_or.mp hvalue

/-- An integer is on one side of a value that is none. -/
theorem partsAround_integer (hname : name ∈ b.integer) (hvalue : value.den ≠ 1) (label label' : Option String) :
    b.PartsAround name value (Row.of (b.single name) .le value.floor label)
      (Row.of (b.single name) .ge value.ceil label') := by
  refine ⟨fun z hz => ?_, fun z hz => ?_⟩
  · rw [holds_of_single, holds_of_single]
    exact le_floor_iff_not_ceil_le hvalue (mem_integers_iff.mpr (hz.integer name hname))
  · rw [holds_of_single, holds_of_single, hz]
    exact ⟨(floor_lt_of_den_ne_one hvalue).not_ge, (lt_ceil_of_den_ne_one hvalue).not_ge⟩

end Rows

/-! ## The variable that is branched on -/

section Selection

/-- The branch rows of a fractional variable part the integral assignments around its value. -/
theorem exists_partsAround (h : b.fractional? found = some name) (s : SearchState) :
    ∃ first second t, (b.branchRows name (found.value name)).run s = (.ok (first, second), t) ∧
      b.PartsAround name (found.value name) first second := by
  rcases fractional?_spec h with ⟨hname, hvalue⟩ | ⟨hno, hname, hvalue⟩
  · exact ⟨_, _, _, branchRows_of_binary hname _ s, partsAround_binary hname hvalue _ _⟩
  · exact ⟨_, _, _, branchRows_of_integer hno _ s, partsAround_integer hname hvalue _ _⟩

/-- The point from which the solution of a relaxation is read gives a fractional variable its value. -/
theorem exists_point_of_fractional (hfair : b.options.tieBreak.Fair) {extra : List Row} {offered : List (List Nat)}
    (hsolved : (b.relaxed extra offered).1 = .ok found) (h : b.fractional? found = some name) :
    ∃ e x cost z, b.equations extra = .ok e ∧ e.Feasible x ∧ found.ReadsOff e.columns x cost ∧ e.Gives x z ∧
      joinParts b.form.split z name = found.value name := by
  obtain ⟨e, x, cost, he, hx, hreads⟩ := exists_of_relaxed hfair hsolved
  obtain ⟨z, hgives, hjoin⟩ := Equations.exists_assignment_of_split he hreads
  exact ⟨e, x, cost, z, he, hx, hreads, hgives,
    hjoin name (Equations.split_or_not_part he hreads (value_ne_zero_of_fractional? h))⟩

end Selection

/-! ## The branches of a solution -/

section Results

/-- From every state a solution has no branches exactly where it is integral.  Otherwise it has two, which are rows over
one variable: an integral assignment satisfies exactly one of them, and an assignment that gives the variable the value
that the solution has satisfies neither.  So does the point of a relaxation, where the solution comes from one. -/
theorem selectBranch_parts (b : Search) (found : Solution) (s : SearchState) :
    (((b.selectBranch found).run s).1 = .ok none ↔ b.IntegralAt found.value) ∧
      (¬b.IntegralAt found.value → ∃ name ∈ b.binary ++ b.integer, ∃ first second,
        ((b.selectBranch found).run s).1 = .ok (some (first, second)) ∧
        (∀ z, b.IntegralAt (joinParts b.form.split z) → (first.Holds z ↔ ¬second.Holds z)) ∧
        (∀ z, joinParts b.form.split z name = found.value name → ¬first.Holds z ∧ ¬second.Holds z) ∧
        ∀ extra offered, b.options.tieBreak.Fair → (b.relaxed extra offered).1 = .ok found →
          ∃ e x cost z, b.equations extra = .ok e ∧ e.Feasible x ∧ found.ReadsOff e.columns x cost ∧ e.Gives x z ∧
            ¬first.Holds z ∧ ¬second.Holds z) := by
  rw [← fractional?_eq_none_iff]
  unfold selectBranch
  cases hfrac : b.fractional? found with
  | none => exact ⟨iff_of_true rfl rfl, fun hno => absurd rfl hno⟩
  | some name =>
    obtain ⟨first, second, t, hrun, hparts⟩ := exists_partsAround hfrac s
    have hchosen := (run_bind_of_ok hrun (f := fun rows => pure (some rows))).trans rfl
    refine ⟨iff_of_false (fun hnone => ?_) (Option.some_ne_none name), fun _ => ?_⟩
    · rw [hchosen] at hnone
      cases hnone
    · refine ⟨name, List.mem_append.mpr (mem_of_fractional? hfrac), first, second, congrArg Prod.fst hchosen,
        hparts.exactly_one, hparts.neither, fun extra offered hfair hsolved => ?_⟩
      obtain ⟨e, x, cost, z, he, hx, hreads, hgives, hvalue⟩ := exists_point_of_fractional hfair hsolved hfrac
      exact ⟨e, x, cost, z, he, hx, hreads, hgives, hparts.neither z hvalue⟩

/-- A search for the largest integer `x` of either sign with `2 x ≤ -5`. -/
def halvedSearch : Search where
  problem :=
    { goal := .maximize, objective := [("x", 1)], constraints := [.plain ⟨[("x", 2)], .le, -5, none⟩],
      integer := ["x"], unrestricted := ["x"] }
  form := { rows := [⟨[("x+", 2), ("x-", -2)], .le, -5, none⟩], split := ["x"] }
  binary := []
  integer := ["x"]
  objective := [("x+", 1), ("x-", -1)]
  options := { tieBreak := .first }

/-- At the root `x` is `-5/2`, which neither `x+ - x- ≤ -3` nor `x+ - x- ≥ -2` allows. -/
theorem selectBranch_parts_sample : ∃ found first second, (halvedSearch.relaxed [] []).1 = .ok found ∧
    found.value "x" = -5 / 2 ∧ first = ⟨[("x+", 1), ("x-", -1)], .le, -3, some "branch1"⟩ ∧
    second = ⟨[("x+", 1), ("x-", -1)], .ge, -2, some "branch2"⟩ ∧
    ((halvedSearch.selectBranch found).run {}).1 = .ok (some (first, second)) ∧
    (∀ z, halvedSearch.IntegralAt (joinParts ["x"] z) → (first.Holds z ↔ ¬second.Holds z)) ∧
    ∃ e x z, halvedSearch.equations [] = .ok e ∧ e.Feasible x ∧ e.Gives x z ∧ ¬first.Holds z ∧ ¬second.Holds z := by
  let found : Solution :=
    ⟨-5 / 2, [(some "x", -5 / 2)], [(some "1", 0)], [(some "x", 0)], [(some "1", 1 / 2)]⟩
  have hsolved : (halvedSearch.relaxed [] []).1 = .ok found := by decide +kernel
  have hbranches : ((halvedSearch.selectBranch found).run {}).1 =
      .ok (some (⟨[("x+", 1), ("x-", -1)], .le, -3, some "branch1"⟩,
        ⟨[("x+", 1), ("x-", -1)], .ge, -2, some "branch2"⟩)) := by decide +kernel
  have hvalue : found.value "x" = -5 / 2 := by decide +kernel
  have hno : ¬halvedSearch.IntegralAt found.value := fun hall =>
    absurd (hall.integer "x" List.mem_cons_self) (by rw [hvalue]; decide +kernel)
  obtain ⟨name, -, first, second, hrun, hone, -, hpoint⟩ := (selectBranch_parts halvedSearch found {}).2 hno
  obtain ⟨rfl, rfl⟩ := Prod.mk.inj (Option.some.inj (Except.ok.inj (hbranches.symm.trans hrun)))
  obtain ⟨e, x, cost, z, he, hx, -, hgives, hfirst, hsecond⟩ := hpoint [] [] Simplex.TieBreak.fair_first hsolved
  exact ⟨found, _, _, hsolved, hvalue, rfl, rfl, hrun, hone, e, x, z, he, hx, hgives, hfirst, hsecond⟩

end Results

end Search

end ExactLP
