import ExactLP.Proofs.Standard.Split
import ExactLP.Standard.Form
import Mathlib.Data.Rat.Floor
import Mathlib.Tactic.Linarith

/-!
# Proofs.Standard.Integral — what tightening and loosening keep

Over integer values a strict comparator and the tightened inclusive one say the same.  Where the values are not
known to be integers, a tightened row still says at least as much as the row it comes from, and a loosened row
at most as much.

* `holdsInclusive_tighten`, `holdsInclusive_of_tighten`: tightened rows.
* `loosen?_spec`: loosened rows.
* `mem_integralNames`: the integral names are those that are declared and their parts.
-/

namespace ExactLP

variable {terms : Terms} {r strict : Row} {integral binary integer split : List String} {v z : Assignment}
  {name : String}

/-! ## Integer values of forms -/

section Values

/-- A form with integer coefficients over names with integer values has an integer value. -/
theorem Terms.eval_mem_integers (hc : ∀ p ∈ terms, p.2 ∈ integers) (hz : ∀ p ∈ terms, z p.1 ∈ integers) :
    terms.eval z ∈ integers := by
  induction terms with
  | nil => exact zero_mem integers
  | cons p rest ih =>
    obtain ⟨hc, hcs⟩ := List.forall_mem_cons.mp hc
    obtain ⟨hz, hzs⟩ := List.forall_mem_cons.mp hz
    rw [eval_cons]
    exact add_mem (mul_mem hc hz) (ih hcs hzs)

/-- The left side of an integral row has an integer value where the integral names have. -/
theorem Row.eval_mem_integers (h : r.isIntegral integral = true) (hz : ∀ name ∈ integral, z name ∈ integers) :
    r.terms.eval z ∈ integers := by
  rw [isIntegral, Bool.and_eq_true, List.all_eq_true] at h
  have hterm : ∀ p ∈ r.terms, p.1 ∈ integral ∧ p.2.den = 1 := by
    intro p hp
    have hp := h.2 p hp
    rwa [Bool.and_eq_true, List.contains_iff_mem, beq_iff_eq] at hp
  exact Terms.eval_mem_integers (fun p hp => mem_integers_iff.mpr (hterm p hp).2)
    fun p hp => hz p.1 (hterm p hp).1

end Values

/-! ## Tightened and loosened rows -/

section Rows

/-- What a row says when it is read as inclusive unless it is tightened. -/
def Row.HoldsAs (r : Row) (tightened : Bool) (v : Assignment) : Prop :=
  if tightened then r.Holds v else r.HoldsInclusive v

/-- The row is rewritten without its strictness. -/
def Row.isTightened (r : Row) (integral : List String) : Bool := r.strict && r.isIntegral integral

/-- An integer is below a number when it is at most the integer under it. -/
theorem le_ceil_sub_one_iff {q rhs : Rat} (hq : q ∈ integers) : q ≤ ((rhs.ceil - 1 : Int) : Rat) ↔ q < rhs := by
  obtain ⟨n, rfl⟩ := hq
  rw [eq_intCast, Int.cast_le, Int.le_sub_one_iff, ← not_le, ← not_le, Rat.ceil_le_iff]

theorem floor_add_one_le_iff {q rhs : Rat} (hq : q ∈ integers) : ((rhs.floor + 1 : Int) : Rat) ≤ q ↔ rhs < q := by
  obtain ⟨n, rfl⟩ := hq
  rw [eq_intCast, Int.cast_le, Int.add_one_le_iff, ← not_le, ← not_le, Rat.le_floor_iff]

theorem ceil_sub_one_lt (rhs : Rat) : ((rhs.ceil - 1 : Int) : Rat) < rhs :=
  (le_ceil_sub_one_iff ⟨_, rfl⟩).mp le_rfl

theorem lt_floor_add_one (rhs : Rat) : rhs < ((rhs.floor + 1 : Int) : Rat) :=
  (floor_add_one_le_iff ⟨_, rfl⟩).mp le_rfl

namespace Row

/-- A tightened row over an integer value says what the strict one says. -/
theorem holdsInclusive_tighten (h : r.isTightened integral = true → r.terms.eval z ∈ integers) :
    (r.tighten integral).HoldsInclusive z ↔ r.HoldsAs (r.isTightened integral) z := by
  unfold tighten HoldsAs
  unfold isTightened at h ⊢
  split
  · rename_i htight
    have heval := h htight
    have hstrict := (Bool.and_eq_true _ _ ▸ htight).1
    obtain ⟨terms, cmp, rhs, label⟩ := r
    cases cmp with
    | lt => exact (holdsInclusive_of _ _ _ _ z).trans (le_ceil_sub_one_iff heval)
    | gt => exact (holdsInclusive_of _ _ _ _ z).trans (floor_add_one_le_iff heval)
    | le | eq | ge => cases hstrict
  · exact Iff.rfl

/-- A tightened row says at least what the row says when it is read as inclusive. -/
theorem holdsInclusive_of_tighten (h : (r.tighten integral).HoldsInclusive z) : r.HoldsInclusive z := by
  unfold tighten at h
  split at h
  · rename_i htight
    have hstrict := (Bool.and_eq_true _ _ ▸ htight).1
    obtain ⟨terms, cmp, rhs, label⟩ := r
    cases cmp with
    | lt => exact ((holdsInclusive_of _ _ _ _ z).mp h).trans (ceil_sub_one_lt rhs).le
    | gt => exact (lt_floor_add_one rhs).le.trans ((holdsInclusive_of _ _ _ _ z).mp h)
    | le | eq | ge => cases hstrict
  · exact h

/-- A loosened row is strict and holds where the row holds. -/
theorem loosen?_spec (h : r.loosen? integral = some strict) :
    strict.strict = true ∧ (r.Holds z → strict.Holds z) ∧ ∀ name ∈ strict.names, name ∈ r.names := by
  unfold loosen? at h
  split at h
  · obtain ⟨terms, cmp, rhs, label⟩ := r
    cases cmp with
    | ge =>
      obtain rfl := Option.some.inj h
      refine ⟨rfl, fun hr => (holds_of _ _ _ _ z).mpr ?_, (Terms.names_nonzero_sublist terms).subset⟩
      exact (ceil_sub_one_lt rhs).trans_le hr
    | le =>
      obtain rfl := Option.some.inj h
      refine ⟨rfl, fun hr => (holds_of _ _ _ _ z).mpr ?_, (Terms.names_nonzero_sublist terms).subset⟩
      exact lt_of_le_of_lt hr (lt_floor_add_one rhs)
    | lt | eq | gt => cases h
  · cases h

end Row

end Rows

/-! ## Integral names -/

section Names

/-- A declared integer is integral, and so are both parts of one that is split.  No other name is. -/
theorem mem_integralNames (h : Unsplit split split)
    (hname : name ∈ integralNames binary integer split) :
    name ∈ binary ++ integer ∨
      ∃ x ∈ split, x ∈ binary ++ integer ∧ (name = positivePart x ∨ name = negativePart x) := by
  suffices hgen : ∀ (rest names : List String), (∀ x ∈ rest, x ∈ split) →
      (∀ k ∈ names, k ∈ binary ++ integer ∨
        ∃ x ∈ split, x ∈ binary ++ integer ∧ (k = positivePart x ∨ k = negativePart x)) →
      ∀ k ∈ rest.foldl (fun names x =>
          if x ∈ names then names ++ [positivePart x, negativePart x] else names) names,
        k ∈ binary ++ integer ∨
          ∃ x ∈ split, x ∈ binary ++ integer ∧ (k = positivePart x ∨ k = negativePart x) from
    hgen split (binary ++ integer) (fun _ => id) (fun _ => Or.inl) name hname
  intro rest
  induction rest with
  | nil => exact fun names _ hnames => hnames
  | cons x rest ih =>
    intro names hsub hnames
    obtain ⟨hx, hrest⟩ := List.forall_mem_cons.mp hsub
    rw [List.foldl_cons]
    refine ih _ hrest ?_
    split
    · rename_i hmem
      -- a split name is declared itself, since it is no part
      have hdeclared : x ∈ binary ++ integer := by
        rcases hnames x hmem with hx' | ⟨y, hy, -, hpart⟩
        · exact hx'
        · exact absurd hpart (not_or.mpr (h x hx y hy))
      intro k hk
      rcases List.mem_append.mp hk with hold | hnew
      · exact hnames k hold
      · exact Or.inr ⟨x, hx, hdeclared, by simpa using hnew⟩
    · exact hnames

end Names

end ExactLP
