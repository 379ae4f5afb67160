import ExactLP.Decimal.Binary
import Mathlib.Tactic.SplitIfs

/-!
# Proofs.Number.Signs — floats without a minus sign

A product of two floats that are not below zero is not below zero, however it is rounded: it may become zero or an
infinity, and zero times an infinity is no number, but none of these has the sign bit.

* `Unsigned`: an unpacked float without a minus sign.
* `Unsigned.msb_pack`, `unsigned_unpack`: packing and unpacking keep that.
* `unsigned_of_pos`, `unsigned_ofNat`: positive floats and the floats of natural numbers.
* `isNegative_mul`: the sign bit of a product.
-/

namespace ExactLP.Decimal

open Float.Model (UnpackedFloat Format)
open Float.Model.UnpackedFloat (Sign Accuracy)

variable {f g : UnpackedFloat} {bits : BitVec 64} {x y : Float}

/-- A number without a minus sign, or no number. -/
inductive Unsigned : UnpackedFloat → Prop
  | notANumber : Unsigned .notANumber
  | infinity : Unsigned (.infinity .positive)
  | zero : Unsigned (.zero .positive)
  | finite (m : Nat) (e : Int) (hm : 0 < m) : Unsigned (.finite .positive m e hm)

/-- Zero, or a number that is not zero. -/
theorem unsigned_zero_or_finite {p : Prop} [Decidable p] (m : Nat) (e : Int) (hm : ¬p → 0 < m) :
    Unsigned (if h : p then .zero .positive else .finite .positive m e (hm h)) := by
  by_cases h : p
  · rw [dif_pos h]
    exact .zero
  · rw [dif_neg h]
    exact .finite _ _ _

/-! ## The sign bit -/

section Bits

theorem isNegative_eq_msb (x : Float) : isNegative x = x.toBits.toBitVec.msb := by
  have hlt := x.toBits.toNat_lt
  have hshift : (x.toBits >>> 63).toNat = x.toBits.toNat / 2 ^ 63 := by
    rw [UInt64.toNat_shiftRight, Nat.shiftRight_eq_div_pow]
    rfl
  rw [isNegative, BitVec.msb_eq_decide, Bool.eq_iff_iff, beq_iff_eq, decide_eq_true_iff, ← UInt64.toNat_inj, hshift]
  show x.toBits.toNat / 2 ^ 63 = 1 ↔ 2 ^ 63 ≤ x.toBits.toNat
  omega

theorem msb_packComponents (e : BitVec 11) (m : BitVec 52) :
    (UnpackedFloat.packComponents .binary64 .positive e m).msb = false := by
  show ((0#1 ++ e) ++ m).msb = false
  rw [BitVec.msb_append, BitVec.msb_append]
  rfl

/-- What has no minus sign is packed without the sign bit. -/
theorem Unsigned.msb_pack (h : Unsigned f) : (f.pack .binary64).msb = false := by
  cases h with
  | notANumber => exact msb_packComponents _ _
  | infinity => exact msb_packComponents _ _
  | zero => exact msb_packComponents _ _
  | finite m e hm =>
    unfold UnpackedFloat.pack
    dsimp only
    split_ifs
    · exact msb_packComponents _ _
    · exact msb_packComponents _ _
    · exact msb_packComponents _ _

theorem unpackSign_of_msb (h : bits.msb = false) : @UnpackedFloat.unpackSign .binary64 bits = 0#1 := by
  rw [BitVec.msb_eq_decide, decide_eq_false_iff_not] at h
  refine BitVec.eq_of_toNat_eq ?_
  show (bits.toNat >>> 63) % 2 = 0
  rw [Nat.shiftRight_eq_div_pow]
  omega

/-- What has no sign bit is unpacked without a minus sign. -/
theorem unsigned_unpack (h : bits.msb = false) : Unsigned (.unpack .binary64 bits) := by
  unfold UnpackedFloat.unpack
  dsimp only
  rw [unpackSign_of_msb h, show Sign.ofBitVec 0#1 = .positive from rfl]
  -- infinities and no numbers, zeros and the small numbers, all others
  refine iteInduction (fun _ => ?_) fun _ => iteInduction (fun _ => ?_) fun _ => .finite _ _ _
  · exact iteInduction (fun _ => .infinity) fun _ => .notANumber
  · exact unsigned_zero_or_finite _ _ _

/-- A result that is packed and unpacked again has no minus sign if it had none. -/
theorem Unsigned.unpack_pack (h : Unsigned f) : Unsigned (Float.Model.pack f).unpack :=
  unsigned_unpack h.msb_pack

end Bits

/-! ## Rounded results -/

section Rounding

/-- Rounding keeps the sign, down to zero. -/
theorem unsigned_roundWithAccuracy (m : Nat) (e : Int) (accuracy : Accuracy) :
    Unsigned (.roundWithAccuracy .binary64 .positive m e accuracy) := by
  unfold UnpackedFloat.roundWithAccuracy
  exact unsigned_zero_or_finite _ _ _

theorem Unsigned.mul (hf : Unsigned f) (hg : Unsigned g) : Unsigned (.mul .binary64 f g) := by
  cases hf <;> cases hg
  case finite.finite => exact unsigned_roundWithAccuracy _ _ _
  all_goals constructor

theorem unsigned_unpacked_ofNat (n : Nat) : Unsigned (.ofNat .binary64 n) := by
  unfold UnpackedFloat.ofNat UnpackedFloat.ofInt UnpackedFloat.normalize
  split
  · rename_i hlt
    exact absurd (Int.compare_eq_lt.mp hlt) (Int.not_lt.mpr (Int.natCast_nonneg n))
  · exact .zero
  · exact unsigned_roundWithAccuracy _ _ _

theorem unsigned_ofScientific (m : Nat) : Unsigned (.ofScientific .binary64 m 0) := by
  unfold UnpackedFloat.ofScientific
  by_cases hm : m = 0
  · rw [dif_pos hm]
    exact .zero
  · rw [dif_neg hm]
    -- the exponent is too large, too small or, as zero is, not negative
    refine iteInduction (fun _ => .infinity) fun _ => iteInduction (fun _ => .zero) fun _ => ?_
    rw [if_pos (Int.le_refl 0)]
    exact (Unsigned.finite _ _ _).mul (.finite _ _ _)

end Rounding

/-! ## Floats -/

section Floats

theorem unsigned_of_pos (h : 0 < x) : Unsigned x.toModel.unpack := by
  have hlt : UnpackedFloat.lt (.zero .positive) x.toModel.unpack = true := of_decide_eq_true h
  cases hx : x.toModel.unpack with
  | notANumber => exact .notANumber
  | infinity s =>
    rw [hx] at hlt
    cases s with
    | positive => exact .infinity
    | negative => cases hlt
  | zero s =>
    rw [hx] at hlt
    cases hlt
  | finite s m e hm =>
    rw [hx] at hlt
    cases s with
    | positive => exact .finite m e hm
    | negative => cases hlt

/-- Small numbers are multiplied by 1, a power of ten, and others are rounded at once. -/
theorem unsigned_ofNat (n : Nat) : Unsigned (Float.ofNat n).toModel.unpack := by
  have hone : (Float.ofBits 0x3FF0000000000000).toModel.toBits.toBitVec.msb = false := by decide +kernel
  show Unsigned (Float.ofScientific n false 0).toModel.unpack
  unfold Float.ofScientific
  split
  · exact ((unsigned_unpacked_ofNat _).unpack_pack.mul (unsigned_unpack hone)).unpack_pack
  · exact (unsigned_ofScientific n).unpack_pack

/-- A product of floats without a minus sign has none. -/
theorem isNegative_mul (hx : Unsigned x.toModel.unpack) (hy : Unsigned y.toModel.unpack) :
    isNegative (x * y) = false := by
  rw [isNegative_eq_msb]
  exact (hx.mul hy).msb_pack

end Floats

end ExactLP.Decimal
