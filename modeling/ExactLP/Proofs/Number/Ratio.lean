import ExactLP.Fault
import ExactLP.Number.Operand
import ExactLP.Proofs.Number.History
import ExactLP.Proofs.Runs
import Mathlib.Data.Rat.Floor
import Mathlib.Tactic.FieldSimp
import Mathlib.Tactic.LinearCombination

/-!
# Proofs.Number.Ratio — ratios are the rational numbers

A ratio *represents* a rational number when it is in lowest terms and has its value.  There is one numerator and
one denominator for each number, so that equality and order can be read off them.

* `represents_iff`: the numerator and denominator of a ratio in lowest terms.
* `Gives`: a computation that ends, in every sound factor table, in a ratio that represents a number.
* `gives_reduce`: the reduction that every computed ratio goes through; from it each operation in turn.
* `canonical_of_toRatio`: an operand of any kind, floats included, becomes a ratio in lowest terms.
* `Ratio.faithful`: building, arithmetic, rounding and comparison after any history of the factor table.
-/

namespace ExactLP

variable {x y r : Ratio} {p q : Rat} {num den : Int} {t : FactorTable} {last : Nat}

/-! ## Lowest terms -/

section Representing

namespace Ratio

/-- The fraction is in lowest terms, with a positive denominator. -/
structure Canonical (x : Ratio) : Prop where
  den_pos : 0 < x.den
  coprime : x.num.natAbs.Coprime x.den

/-- The ratio is in lowest terms and has this value. -/
structure Represents (x : Ratio) (q : Rat) : Prop extends x.Canonical where
  value : x.toRat = q

theorem Canonical.den_eq_one (h : x.Canonical) (hzero : x.num = 0) : x.den = 1 := by
  have hcoprime := h.coprime
  rwa [hzero, Int.natAbs_zero, Nat.coprime_zero_left] at hcoprime

/-- A ratio represents a number exactly when it has the numerator and denominator of its lowest terms. -/
theorem represents_iff : x.Represents q ↔ x.num = q.num ∧ x.den = q.den := by
  constructor
  · intro h
    have hvalue := (Rat.mk_eq_mkRat x.num x.den h.den_pos.ne' h.coprime).trans h.value
    exact ⟨congrArg Rat.num hvalue, congrArg Rat.den hvalue⟩
  · rintro ⟨hnum, hden⟩
    refine ⟨⟨hden ▸ q.den_pos, ?_⟩, ?_⟩
    · rw [hnum, hden]
      exact q.reduced
    · rw [toRat, hnum, hden, Rat.mkRat_self]

theorem Represents.num_eq (h : x.Represents q) : x.num = q.num := (represents_iff.mp h).1

theorem Represents.den_eq (h : x.Represents q) : x.den = q.den := (represents_iff.mp h).2

theorem Represents.eq_div (h : x.Represents q) : q = x.num / x.den := by
  rw [← h.value, toRat, Rat.mkRat_eq_div]

theorem Represents.den_ne_zero (h : x.Represents q) : (x.den : Rat) ≠ 0 := Nat.cast_ne_zero.mpr h.den_pos.ne'

theorem represents_zero : zero.Represents 0 := represents_iff.mpr ⟨rfl, rfl⟩

theorem Represents.isZero_iff (h : x.Represents q) : x.isZero = true ↔ q = 0 := by
  rw [isZero, beq_iff_eq, h.num_eq, Rat.num_eq_zero]

theorem Represents.isOne_iff (h : x.Represents q) : x.isOne = true ↔ q = 1 := by
  rw [isOne, beq_iff_eq, h.eq_div, div_eq_one_iff_eq h.den_ne_zero]
  norm_cast

end Ratio

end Representing

/-! ## Reduction -/

section Reduction

/-- In every sound table the computation ends in a ratio that represents this number. -/
def Gives (x : Factoring Ratio) (q : Rat) : Prop := ∃ r, Answers x r ∧ r.Represents q

theorem gives_pure (h : x.Represents q) : Gives (pure x) q := ⟨x, answers_pure x, h⟩

theorem Gives.bind {x : Factoring Ratio} {f : Ratio → Factoring Ratio} (hx : Gives x p)
    (hf : ∀ r : Ratio, r.Represents p → Gives (f r) q) : Gives (x >>= f) q := by
  obtain ⟨r, hr, hrep⟩ := hx
  obtain ⟨s, hs, hsrep⟩ := hf r hrep
  exact ⟨s, hr.bind hs, hsrep⟩

/-- Dividing by the greatest common factor puts a fraction in lowest terms. -/
theorem gives_reduce (hden : den ≠ 0) (residual : Float) : Gives (Ratio.reduce num den residual) (num / den) := by
  have hvalue : mkRat (if den < 0 then -num else num) den.natAbs = num / den := by
    rw [Rat.mkRat_eq_div]
    split
    · rw [Int.cast_neg, Nat.cast_natAbs, Int.cast_abs, abs_of_neg (Int.cast_lt_zero.mpr ‹_›), neg_div_neg_eq]
    · rw [Nat.cast_natAbs, Int.cast_abs, abs_of_nonneg (Int.cast_nonneg (not_lt.mp ‹_›))]
  have hnat : den.natAbs ≠ 0 := Int.natAbs_ne_zero.mpr hden
  unfold Ratio.reduce
  dsimp only
  generalize (if den < 0 then -num else num) = n at hvalue ⊢
  rw [← hvalue]
  split
  · rename_i hzero
    rw [hzero, Rat.zero_mkRat]
    exact gives_pure (Ratio.represents_iff.mpr ⟨rfl, rfl⟩)
  · rename_i hne
    rw [← Rat.normalize_eq_mkRat hnat, Rat.normalize_eq hnat]
    exact ⟨_, (answers_commonFactor hne hden).bind (answers_pure _), Ratio.represents_iff.mpr ⟨rfl, rfl⟩⟩

theorem gives_computed (hden : den ≠ 0) (hq : (num / den : Rat) = q) : Gives (Ratio.computed num den) q :=
  hq ▸ gives_reduce hden 0

end Reduction

/-! ## Operations -/

section Operations

namespace Ratio

/-- Sums and differences, over the larger denominator or over the product of both. -/
theorem gives_combine (hx : x.Represents p) (hy : y.Represents q) (sign : Int) :
    Gives (combine sign x y) (p + sign * q) := by
  have hxd := hx.den_ne_zero
  have hyd := hy.den_ne_zero
  have hxi : (x.den : Int) ≠ 0 := Int.natCast_ne_zero.mpr hx.den_pos.ne'
  have hyi : (y.den : Int) ≠ 0 := Int.natCast_ne_zero.mpr hy.den_pos.ne'
  rw [hx.eq_div, hy.eq_div]
  -- one denominator, that of `x` as a multiple of that of `y`, the converse, or their product
  unfold combine
  split
  · rename_i heq
    refine gives_computed hxi ?_
    rw [heq] at hxd ⊢
    push_cast
    field_simp
  split
  · rename_i hdvd
    refine gives_computed hxi ?_
    obtain ⟨k, hk⟩ := Nat.dvd_of_mod_eq_zero hdvd
    rw [hk, Nat.mul_div_cancel_left k hy.den_pos]
    have hk0 : (k : Rat) ≠ 0 := fun h0 => hxd (by rw [hk, Nat.cast_mul, h0, mul_zero])
    push_cast
    field_simp
  split
  · rename_i hdvd
    refine gives_computed hyi ?_
    obtain ⟨k, hk⟩ := Nat.dvd_of_mod_eq_zero hdvd
    rw [hk, Nat.mul_div_cancel_left k hx.den_pos]
    have hk0 : (k : Rat) ≠ 0 := fun h0 => hyd (by rw [hk, Nat.cast_mul, h0, mul_zero])
    push_cast
    field_simp
    ring
  · refine gives_computed (mul_ne_zero hxi hyi) ?_
    push_cast
    field_simp

theorem gives_add (hx : x.Represents p) (hy : y.Represents q) : Gives (x.add y) (p + q) := by
  have hsum := gives_combine hx hy 1
  rwa [Int.cast_one, one_mul] at hsum

theorem gives_sub (hx : x.Represents p) (hy : y.Represents q) : Gives (x.sub y) (p - q) := by
  have hsum := gives_combine hx hy (-1)
  rwa [Int.cast_neg, Int.cast_one, neg_one_mul, ← sub_eq_add_neg] at hsum

theorem gives_mul (hx : x.Represents p) (hy : y.Represents q) : Gives (x.mul y) (p * q) := by
  unfold mul
  split
  · rename_i hzero
    rw [Bool.or_eq_true, hx.isZero_iff, hy.isZero_iff] at hzero
    rw [mul_eq_zero.mpr hzero]
    exact gives_pure represents_zero
  split
  · rename_i hone
    rw [hx.isOne_iff.mp hone, one_mul]
    exact gives_pure hy
  split
  · rename_i hone
    rw [hy.isOne_iff.mp hone, mul_one]
    exact gives_pure hx
  · have hxi : (x.den : Int) ≠ 0 := Int.natCast_ne_zero.mpr hx.den_pos.ne'
    have hyi : (y.den : Int) ≠ 0 := Int.natCast_ne_zero.mpr hy.den_pos.ne'
    refine gives_computed (mul_ne_zero hxi hyi) ?_
    rw [hx.eq_div, hy.eq_div]
    push_cast
    rw [div_mul_div_comm]

theorem gives_reciprocal (hx : x.Represents p) (hp : p ≠ 0) : Gives x.reciprocal p⁻¹ := by
  have hnum : x.num ≠ 0 := by
    rw [hx.num_eq]
    exact Rat.num_ne_zero.mpr hp
  unfold reciprocal
  rw [if_neg hnum]
  refine gives_computed hnum ?_
  rw [hx.eq_div, inv_div]
  rfl

theorem gives_div (hx : x.Represents p) (hy : y.Represents q) (hq : q ≠ 0) : Gives (x.div y) (p / q) := by
  unfold div
  rw [if_neg (mt hy.isZero_iff.mp hq)]
  split
  · rename_i hshort
    rw [Bool.or_eq_true, hx.isZero_iff, hy.isOne_iff] at hshort
    have hsame : p / q = p := by
      rcases hshort with rfl | rfl
      · exact zero_div q
      · exact div_one p
    rw [hsame]
    exact gives_pure hx
  split
  · rename_i hone
    rw [hx.isOne_iff.mp hone, one_div]
    exact gives_reciprocal hy hq
  · have hxi : (x.den : Int) ≠ 0 := Int.natCast_ne_zero.mpr hx.den_pos.ne'
    have hnum : y.num ≠ 0 := by
      rw [hy.num_eq]
      exact Rat.num_ne_zero.mpr hq
    refine gives_computed (mul_ne_zero hxi hnum) ?_
    rw [hx.eq_div, hy.eq_div]
    push_cast
    rw [div_div_div_eq]

theorem gives_negated (hx : x.Represents p) : Gives x.negated (-p) := by
  refine gives_computed (Int.natCast_ne_zero.mpr hx.den_pos.ne') ?_
  rw [hx.eq_div]
  push_cast
  exact neg_div _ _

theorem gives_abs (hx : x.Represents p) : Gives x.abs |p| := by
  unfold Ratio.abs
  rw [hx.num_eq]
  split
  · rename_i hneg
    rw [abs_of_neg (Rat.num_neg.mp hneg)]
    exact gives_negated hx
  · rename_i hnonneg
    rw [abs_of_nonneg (Rat.num_nonneg.mp (not_lt.mp hnonneg))]
    exact gives_pure hx

/-! ### Rounding -/

theorem Represents.floorInt_eq (hx : x.Represents p) : x.floorInt = ⌊p⌋ := by
  rw [floorInt, hx.num_eq, hx.den_eq, Int.fdiv_eq_ediv_of_nonneg _ (Int.natCast_nonneg _), Rat.floor_def']

theorem Represents.ceilInt_eq (hx : x.Represents p) : x.ceilInt = ⌈p⌉ := by
  rw [ceilInt, hx.num_eq, hx.den_eq, Int.fdiv_eq_ediv_of_nonneg _ (Int.natCast_nonneg _), Rat.ceil_def']

theorem gives_integer (n : Int) : Gives (computed n 1) n :=
  gives_computed one_ne_zero (by rw [Int.cast_one, div_one])

/-- The integer part is the number rounded towards zero. -/
theorem Represents.truncate_eq (hx : x.Represents p) : x.truncate = if 0 ≤ p then ⌊p⌋ else ⌈p⌉ := by
  rw [truncate, hx.num_eq, hx.den_eq]
  split
  · rename_i hpos
    rw [Int.tdiv_eq_ediv_of_nonneg (Rat.num_nonneg.mpr hpos), Rat.floor_def']
  · rename_i hneg
    have hnum : 0 ≤ -p.num := Int.neg_nonneg_of_nonpos (Rat.num_nonpos.mpr (not_le.mp hneg).le)
    rw [Rat.ceil_def', ← Int.tdiv_eq_ediv_of_nonneg hnum, Int.neg_tdiv, neg_neg]

end Ratio

/-! ### Comparison -/

/-- What a relation says of two numbers. -/
def Relation.Means : Relation → Rat → Rat → Prop
  | eq, p, q => p = q
  | ne, p, q => p ≠ q
  | lt, p, q => p < q
  | le, p, q => p ≤ q
  | gt, p, q => q < p
  | ge, p, q => q ≤ p

theorem Ratio.same_iff (hx : x.Represents p) (hy : y.Represents q) : x.same y = true ↔ p = q := by
  rw [Ratio.same, Bool.and_eq_true, beq_iff_eq, beq_iff_eq, hx.num_eq, hy.num_eq, hx.den_eq, hy.den_eq]
  exact ⟨fun h => Rat.ext h.1 h.2, fun h => ⟨congrArg Rat.num h, congrArg Rat.den h⟩⟩

/-- The difference of the cross products has the sign of the difference of the numbers. -/
theorem Ratio.difference_neg_iff (hx : x.Represents p) (hy : y.Represents q) : x.difference y < 0 ↔ p < q := by
  rw [Ratio.difference, hx.num_eq, hy.num_eq, hx.den_eq, hy.den_eq, Rat.lt_iff]
  exact sub_neg

theorem Ratio.difference_pos_iff (hx : x.Represents p) (hy : y.Represents q) : 0 < x.difference y ↔ q < p := by
  rw [Ratio.difference, hx.num_eq, hy.num_eq, hx.den_eq, hy.den_eq, Rat.lt_iff]
  exact sub_pos

theorem answers_holds (hx : x.Represents p) (hy : y.Represents q) (rel : Relation) :
    ∃ b, Answers (rel.holds x (.ratio y)) b ∧ (b = true ↔ rel.Means p q) := by
  have hsame := Ratio.same_iff hx hy
  have hneg := Ratio.difference_neg_iff hx hy
  have hpos := Ratio.difference_pos_iff hx hy
  cases rel with
  | eq => exact ⟨x.same y, answers_pure _, hsame⟩
  | ne => exact ⟨!x.same y, answers_pure _, by rw [Bool.not_eq_true', ← Bool.not_eq_true, hsame]; rfl⟩
  | lt => exact ⟨_, answers_pure _, decide_eq_true_iff.trans hneg⟩
  | le => exact ⟨_, answers_pure _, decide_eq_true_iff.trans (not_lt.symm.trans (hpos.not.trans not_lt))⟩
  | gt => exact ⟨_, answers_pure _, decide_eq_true_iff.trans hpos⟩
  | ge => exact ⟨_, answers_pure _, decide_eq_true_iff.trans (not_lt.symm.trans (hneg.not.trans not_lt))⟩

end Operations

/-! ## Building -/

section Building

variable {a b : Operand}

/-- The operand is a number that is known exactly, and this is its value.  A float stands for no number here: what
it is read as need not be its value. -/
inductive Operand.Stands : Operand → Rat → Prop
  | int (n : Int) : Stands (.int n) n
  | bool (b : Bool) : Stands (.bool b) (if b then 1 else 0)
  | fraction (num : Int) (den : Nat) (h : den ≠ 0) : Stands (.fraction num den) (num / den)
  | ratio (x : Ratio) (q : Rat) (h : x.Represents q) : Stands (.ratio x) q

theorem gives_toRatio (h : a.Stands q) : Gives a.toRatio q := by
  cases h with
  | int n => exact Ratio.gives_integer n
  | bool b =>
    cases b
    · exact Ratio.gives_integer 0
    · exact Ratio.gives_integer 1
  | fraction num den hden => exact gives_computed (Int.natCast_ne_zero.mpr hden) rfl
  | ratio x _ hx => exact gives_pure hx

theorem gives_ofOperand (h : a.Stands q) : Gives (Ratio.ofOperand a) q := by
  cases h with
  | ratio x _ hx => exact hx.eq_div ▸ gives_reduce (Int.natCast_ne_zero.mpr hx.den_pos.ne') x.residual
  | int n => exact gives_toRatio (.int n)
  | bool b => exact gives_toRatio (.bool b)
  | fraction num den hden => exact gives_toRatio (.fraction num den hden)

theorem Operand.Stands.eq_of_integer? (h : a.Stands q) {n : Int} (hn : a.integer? = some n) : q = n := by
  cases h with
  | int m => exact congrArg Int.cast (Option.some.inj hn)
  | bool b => cases b <;> exact (Option.some.inj hn) ▸ rfl
  | fraction num den hden => cases hn
  | ratio x _ hx => cases hn

theorem gives_ofPair (ha : a.Stands p) (hb : b.Stands q) (hq : q ≠ 0) : Gives (Ratio.ofPair a b) (p / q) := by
  unfold Ratio.ofPair
  split
  · rename_i m n hm hn
    rw [ha.eq_of_integer? hm, hb.eq_of_integer? hn]
    have hne : n ≠ 0 := fun h0 => hq (by rw [hb.eq_of_integer? hn, h0, Int.cast_zero])
    rw [if_neg hne]
    exact gives_computed hne rfl
  · refine (gives_toRatio ha).bind fun x hx => (gives_toRatio hb).bind fun y hy => ?_
    refine (Ratio.gives_div hx hy hq).bind fun r hr => ?_
    exact gives_computed (Int.natCast_ne_zero.mpr hr.den_pos.ne') hr.eq_div.symm

/-! ### Floats -/

theorem firstDenominator_ne_zero {f : Float} {d : Nat} (ds : List Nat) (hds : ∀ d ∈ ds, d ≠ 0)
    (h : firstDenominator f ds = .ok d) : d ≠ 0 := by
  induction ds with
  | nil => exact Except.ok.inj h ▸ by decide
  | cons k rest ih =>
    obtain ⟨hk, hrest⟩ := List.forall_mem_cons.mp hds
    rw [firstDenominator] at h
    obtain ⟨found, -, h⟩ := ok_of_bind h
    split at h
    · exact Except.ok.inj h ▸ hk
    · exact ih hrest h

theorem resolve_den_ne_zero {f residual : Float} {d : Nat} (h : resolve f = .ok (num, d, residual)) : d ≠ 0 := by
  unfold resolve at h
  split at h
  · cases h
  split at h
  · cases h
  split at h
  · cases h
    exact one_ne_zero
  split at h
  · cases h
    exact one_ne_zero
  obtain ⟨k, hk, h⟩ := ok_of_bind h
  obtain ⟨n, -, h⟩ := ok_of_bind h
  split at h
  · cases h
    exact firstDenominator_ne_zero denominators (by decide +kernel) hk
  · cases h

/-- A fraction has a denominator, and a ratio is in lowest terms. -/
def Operand.Proper : Operand → Prop
  | fraction _ den => den ≠ 0
  | ratio x => x.Canonical
  | _ => True

/-- Whatever an operand is, the ratio that it becomes is in lowest terms. -/
theorem canonical_of_toRatio (ht : t.Sound last) (ha : a.Proper) (h : (a.toRatio.run t).1 = .ok r) :
    r.Canonical := by
  have hgives : ∀ {x : Factoring Ratio} {q : Rat}, Gives x q → (x.run t).1 = .ok r → r.Canonical := by
    rintro x q ⟨s, hs, hrep⟩ hrun
    rw [ht.answer_eq hs] at hrun
    exact Except.ok.inj hrun ▸ hrep.toCanonical
  cases a with
  | int n => exact hgives (gives_toRatio (.int n)) h
  | bool b => exact hgives (gives_toRatio (.bool b)) h
  | fraction num den => exact hgives (gives_toRatio (.fraction num den ha)) h
  | ratio x => exact Except.ok.inj h ▸ ha
  | other kind => cases h
  | float f =>
    cases hresolve : resolve f with
    | error fault =>
      rw [Operand.toRatio, hresolve] at h
      cases h
    | ok found =>
      obtain ⟨num, den, residual⟩ := found
      rw [Operand.toRatio, hresolve] at h
      exact hgives (gives_reduce (Int.natCast_ne_zero.mpr (resolve_den_ne_zero hresolve)) residual) h

end Building

/-! ## Any history -/

section Faithful

/-- In this table the computation ends in a ratio that represents the number. -/
def Yields (t : FactorTable) (x : Factoring Ratio) (q : Rat) : Prop := ∃ r, (x.run t).1 = .ok r ∧ r.Represents q

theorem Gives.yields {x : Factoring Ratio} (h : Gives x q) (ht : t.Sound last) : Yields t x q := by
  obtain ⟨r, hr, hrep⟩ := h
  exact ⟨r, ht.answer_eq hr, hrep⟩

/-- The result is refused as a division by zero. -/
def DividesByZero (result : Except NumberFault Ratio) : Prop :=
  ∃ fault, result = .error fault ∧ fault.kind = .zeroDivision

theorem Yields.not_dividesByZero {x : Factoring Ratio} (h : Yields t x q) : ¬DividesByZero (x.run t).1 := by
  rintro ⟨fault, hfault, -⟩
  obtain ⟨r, hr, -⟩ := h
  rw [hr] at hfault
  cases hfault

/-- After any history of the default factor table, ratios are built and computed with as the rational numbers
that they represent, and they stay in lowest terms. -/
theorem Ratio.faithful (past : List Query) (t : FactorTable) (ht : t = FactorTable.fresh.after past) :
    (∀ a q, a.Stands q → Yields t (ofOperand a) q) ∧
    (∀ a b p q, a.Stands p → b.Stands q → q ≠ 0 → Yields t (ofPair a b) (p / q)) ∧
    (∀ x q, Represents x q → 0 < x.den ∧ x.num.natAbs.Coprime x.den ∧ (q = 0 → x.num = 0 ∧ x.den = 1)) ∧
    ∀ (x y : Ratio) (p q : Rat), x.Represents p → y.Represents q →
      Yields t (x.add y) (p + q) ∧ Yields t (x.sub y) (p - q) ∧ Yields t (x.mul y) (p * q) ∧
      (q ≠ 0 → Yields t (x.div y) (p / q)) ∧ (DividesByZero ((x.div y).run t).1 ↔ q = 0) ∧
      (p ≠ 0 → Yields t x.reciprocal p⁻¹) ∧ (DividesByZero (x.reciprocal.run t).1 ↔ p = 0) ∧
      Yields t x.negated (-p) ∧ Yields t x.abs |p| ∧ Yields t x.floor ⌊p⌋ ∧ Yields t x.ceil ⌈p⌉ ∧
      x.floorInt = ⌊p⌋ ∧ x.ceilInt = ⌈p⌉ ∧ x.truncate = (if 0 ≤ p then ⌊p⌋ else ⌈p⌉) ∧
      (x.same y = true ↔ p = q) ∧
      ∀ rel : Relation, ∃ b, ((rel.holds x (.ratio y)).run t).1 = .ok b ∧ (b = true ↔ rel.Means p q) := by
  have hsound : t.Sound 997 := ht ▸ ((FactorTable.fresh_listsPrimes.sound rfl).after past).1
  refine ⟨fun a q ha => (gives_ofOperand ha).yields hsound,
    fun a b p q ha hb hq => (gives_ofPair ha hb hq).yields hsound, fun x q hx => ?_, fun x y p q hx hy => ?_⟩
  · refine ⟨hx.den_pos, hx.coprime, fun hzero => ?_⟩
    have hnum : x.num = 0 := by rw [hx.num_eq, hzero, Rat.num_zero]
    exact ⟨hnum, hx.den_eq_one hnum⟩
  · have hdiv : q ≠ 0 → Yields t (x.div y) (p / q) := fun hq => (gives_div hx hy hq).yields hsound
    have hrec : p ≠ 0 → Yields t x.reciprocal p⁻¹ := fun hp => (gives_reciprocal hx hp).yields hsound
    have hfloor : Yields t x.floor ⌊p⌋ := hx.floorInt_eq ▸ (gives_integer x.floorInt).yields hsound
    have hceil : Yields t x.ceil ⌈p⌉ := hx.ceilInt_eq ▸ (gives_integer x.ceilInt).yields hsound
    refine ⟨(gives_add hx hy).yields hsound, (gives_sub hx hy).yields hsound, (gives_mul hx hy).yields hsound,
      hdiv, ⟨fun hzero => ?_, fun hzero => ⟨.divisionByZero, ?_, rfl⟩⟩, hrec,
      ⟨fun hzero => ?_, fun hzero => ⟨.noReciprocal, ?_, rfl⟩⟩, (gives_negated hx).yields hsound,
      (gives_abs hx).yields hsound, hfloor, hceil, hx.floorInt_eq, hx.ceilInt_eq, hx.truncate_eq, same_iff hx hy,
      fun rel => ?_⟩
    · exact not_not.mp fun hq => (hdiv hq).not_dividesByZero hzero
    · rw [div, if_pos (hy.isZero_iff.mpr hzero)]
      rfl
    · exact not_not.mp fun hp => (hrec hp).not_dividesByZero hzero
    · rw [reciprocal, hx.num_eq, if_pos (Rat.num_eq_zero.mpr hzero)]
      rfl
    · obtain ⟨b, hb, hmeans⟩ := answers_holds hx hy rel
      exact ⟨b, hsound.answer_eq hb, hmeans⟩

/-- After a question about 210, a fraction and a ratio are divided, and their quotient is compared with another. -/
theorem Ratio.faithful_sample :
    Operand.Stands (.fraction (-6) 35) (-6 / 35) ∧ Represents ⟨4, 15, 0⟩ (4 / 15) ∧
    Yields (FactorTable.fresh.after [.factors 210]) (ofPair (.fraction (-6) 35) (.ratio ⟨4, 15, 0⟩)) (-9 / 14) ∧
    Represents ⟨-9, 14, 0⟩ (-9 / 14) ∧
    Yields (FactorTable.fresh.after [.factors 210]) ((⟨-9, 14, 0⟩ : Ratio).add ⟨4, 15, 0⟩) (-79 / 210) := by
  have hfraction : Operand.Stands (.fraction (-6) 35) (-6 / 35) := by
    have h := Operand.Stands.fraction (-6) 35 (by decide)
    norm_num at h ⊢
    exact h
  have hratio : Represents ⟨4, 15, 0⟩ (4 / 15) := ⟨⟨by decide, by decide⟩, Rat.mkRat_eq_div 4 15⟩
  have hother : Represents ⟨-9, 14, 0⟩ (-9 / 14) := ⟨⟨by decide, by decide⟩, Rat.mkRat_eq_div (-9) 14⟩
  obtain ⟨-, hpair, -, hops⟩ := Ratio.faithful [.factors 210] _ rfl
  refine ⟨hfraction, hratio, ?_, hother, ?_⟩
  · have h := hpair _ _ _ _ hfraction (.ratio _ _ hratio) (by norm_num)
    norm_num at h ⊢
    exact h
  · have h := (hops _ _ _ _ hother hratio).1
    norm_num at h ⊢
    exact h

end Faithful

end ExactLP
