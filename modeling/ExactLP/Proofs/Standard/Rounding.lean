import ExactLP.Proofs.Standard.Implication
import ExactLP.Proofs.Standard.Splitting

/-!
# Proofs.Standard.Rounding — tightening and loosening

Where the values of the integral names are integers, a tightened row and a loosened one say what the row says.  Only
rows with an integral left side and an inclusive inequality can be loosened, and tightening takes the loosened row back
to the row itself, with its right side rounded to an integer.

* `Row.loosen?_eq_none_iff`, `Row.loosen?_cases`: which rows can be loosened, and to what.
* `Row.tighten_withBound_gt`, `Row.tighten_withBound_lt`: strict rows with an integer on the right side.
* `Row.tighten_and_loosen`: both rewrites together.
-/

namespace ExactLP.Row

variable {r strict : Row} {integral : List String}

/-! ## Loosened rows -/

section Loosened

/-- A row cannot be loosened exactly where it is an equality or strict, or its left side is empty or not integral. -/
theorem loosen?_eq_none_iff : r.loosen? integral = none ↔
    r.cmp = .eq ∨ r.strict = true ∨ r.terms = [] ∨ ∃ p ∈ r.terms, p.1 ∉ integral ∨ p.2.den ≠ 1 := by
  have hleft : r.isIntegral integral = true ↔ ¬(r.terms = [] ∨ ∃ p ∈ r.terms, p.1 ∉ integral ∨ p.2.den ≠ 1) := by
    rw [isIntegral_iff, not_or]
    refine and_congr_right fun _ => ?_
    push Not
    exact Iff.rfl
  unfold loosen?
  by_cases hintegral : r.isIntegral integral = true
  · rw [if_pos hintegral]
    rw [or_iff_left (a := r.strict = true) (hleft.mp hintegral)]
    cases hcmp : r.cmp <;> simp [strict, Comparator.strict, hcmp]
  · rw [if_neg hintegral]
    exact iff_of_true rfl (Or.inr (Or.inr (not_not.mp (mt hleft.mpr hintegral))))

theorem loosen?_cases (h : r.loosen? integral = some strict) : r.isIntegral integral = true ∧
    ((r.cmp = .ge ∧ strict = r.withBound .gt (r.rhs.ceil - 1 : Int)) ∨
      (r.cmp = .le ∧ strict = r.withBound .lt (r.rhs.floor + 1 : Int))) := by
  unfold loosen? at h
  split at h
  · rename_i hintegral
    refine ⟨hintegral, ?_⟩
    cases hcmp : r.cmp with
    | ge =>
      rw [hcmp] at h
      exact Or.inl ⟨rfl, (Option.some.inj h).symm⟩
    | le =>
      rw [hcmp] at h
      exact Or.inr ⟨rfl, (Option.some.inj h).symm⟩
    | lt | eq | gt =>
      rw [hcmp] at h
      cases h
  · cases h

end Loosened

/-! ## Strict rows with an integer on the right side -/

section Tightened

variable (hr : r.terms.Nonzero)
include hr

/-- A form without zero coefficients stays as it is under another bound. -/
theorem withBound_eq (cmp : Comparator) (rhs : Rat) : r.withBound cmp rhs = ⟨r.terms, cmp, rhs, r.label⟩ := by
  unfold withBound of
  rw [Terms.nonzero_eq hr]

theorem tighten_withBound_gt (hintegral : r.isIntegral integral = true) (n : Int) :
    (r.withBound .gt n).tighten integral = ⟨r.terms, .ge, (n + 1 : Int), r.label⟩ := by
  rw [withBound_eq hr]
  have hstrict : (Row.strict ⟨r.terms, .gt, n, r.label⟩ && isIntegral ⟨r.terms, .gt, n, r.label⟩ integral) = true :=
    hintegral
  unfold tighten
  rw [if_pos hstrict]
  show Row.of r.terms .ge ((n : Rat).floor + 1 : Int) r.label = _
  rw [Rat.floor_intCast, of, Terms.nonzero_eq hr]

theorem tighten_withBound_lt (hintegral : r.isIntegral integral = true) (n : Int) :
    (r.withBound .lt n).tighten integral = ⟨r.terms, .le, (n - 1 : Int), r.label⟩ := by
  rw [withBound_eq hr]
  have hstrict : (Row.strict ⟨r.terms, .lt, n, r.label⟩ && isIntegral ⟨r.terms, .lt, n, r.label⟩ integral) = true :=
    hintegral
  unfold tighten
  rw [if_pos hstrict]
  show Row.of r.terms .le ((n : Rat).ceil - 1 : Int) r.label = _
  rw [Rat.ceil_intCast, of, Terms.nonzero_eq hr]

/-- Tightening takes a loosened row back, with its right side rounded. -/
theorem tighten_of_loosen? (h : r.loosen? integral = some strict) :
    (r.cmp = .ge ∧ strict.tighten integral = { r with rhs := r.rhs.ceil }) ∨
      (r.cmp = .le ∧ strict.tighten integral = { r with rhs := r.rhs.floor }) := by
  obtain ⟨hintegral, ⟨hcmp, rfl⟩ | ⟨hcmp, rfl⟩⟩ := loosen?_cases h
  · refine Or.inl ⟨hcmp, ?_⟩
    rw [tighten_withBound_gt hr hintegral, sub_add_cancel, ← hcmp]
  · refine Or.inr ⟨hcmp, ?_⟩
    rw [tighten_withBound_lt hr hintegral, add_sub_cancel_right, ← hcmp]

end Tightened

/-! ## Both rewrites -/

section Results

/-- Over integers for the integral names a tightened row and a loosened one say what the row says.  A loosened row is
strict, there is one unless the row is an equality or strict or its left side is empty or not integral, and tightening
takes it back to the row with its right side rounded up where it bounds from below and down where it bounds from
above. -/
theorem tighten_and_loosen (hr : r.terms.Nonzero) (integral : List String) :
    (∀ z : Assignment, (∀ name ∈ integral, (z name).den = 1) → ((r.tighten integral).Holds z ↔ r.Holds z)) ∧
      (r.loosen? integral = none ↔
        r.cmp = .eq ∨ r.strict = true ∨ r.terms = [] ∨ ∃ p ∈ r.terms, p.1 ∉ integral ∨ p.2.den ≠ 1) ∧
      ∀ strict, r.loosen? integral = some strict → strict.strict = true ∧
        (∀ z : Assignment, (∀ name ∈ integral, (z name).den = 1) → (strict.Holds z ↔ r.Holds z)) ∧
        ((r.cmp = .ge ∧ strict.tighten integral = { r with rhs := r.rhs.ceil }) ∨
          (r.cmp = .le ∧ strict.tighten integral = { r with rhs := r.rhs.floor })) := by
  have hintegers : ∀ {z : Assignment}, (∀ name ∈ integral, (z name).den = 1) → ∀ name ∈ integral, z name ∈ integers :=
    fun hz name hname => mem_integers_iff.mpr (hz name hname)
  refine ⟨fun z hz => holds_tighten (hintegers hz), loosen?_eq_none_iff, fun strict hloose => ?_⟩
  have hstrict := (loosen?_spec (z := fun _ => 0) hloose).1
  exact ⟨hstrict, fun z hz => holds_loosen? (hintegers hz) hloose, tighten_of_loosen? hr hloose⟩

/-- The row `2 x - 3 y ≤ -7/2`. -/
def sampleSlanted : Row := ⟨[("x", 2), ("y", -3)], .le, -7 / 2, none⟩

/-- Over integers `2 x - 3 y ≤ -7/2` is the strict `2 x - 3 y < -3`, which is tightened to `2 x - 3 y ≤ -4`. -/
theorem tighten_and_loosen_sample : sampleSlanted.terms.Nonzero ∧
    ∃ strict, sampleSlanted.loosen? ["x", "y"] = some strict ∧ strict = ⟨[("x", 2), ("y", -3)], .lt, -3, none⟩ ∧
      strict.tighten ["x", "y"] = { sampleSlanted with rhs := -4 } ∧
      ∀ z : Assignment, (z "x").den = 1 → (z "y").den = 1 → (strict.Holds z ↔ sampleSlanted.Holds z) := by
  have hnonzero : sampleSlanted.terms.Nonzero := by decide
  have hloose : sampleSlanted.loosen? ["x", "y"] = some ⟨[("x", 2), ("y", -3)], .lt, -3, none⟩ := by decide +kernel
  obtain ⟨-, -, hall⟩ := tighten_and_loosen hnonzero ["x", "y"]
  obtain ⟨-, hholds, hback⟩ := hall _ hloose
  refine ⟨hnonzero, _, hloose, rfl, ?_, fun z hx hy => hholds z (by simp [hx, hy])⟩
  rcases hback with ⟨hcmp, -⟩ | ⟨-, hback⟩
  · cases hcmp
  · rw [hback]
    decide +kernel

end Results

end ExactLP.Row
