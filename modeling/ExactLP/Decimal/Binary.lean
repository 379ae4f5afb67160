/-!
# Decimal.Binary — binary64 values as exact integers

A finite binary64 magnitude is `m * 2 ^ q` for naturals `m` and integers `q`, so its comparisons and
roundings are done on integers and never on floats.

* `roundQuotient n d`: the integer nearest to `n / d`, an exact half going to the even neighbour.
* `exactValue x`: the rational number that a finite `x` is.
* `nearestInt x`: the integer nearest to a finite `x`, with the same tie rule.
* `nearestFloat? a b`: the binary64 value nearest to `a / b`, or `none` when that is beyond the
  largest finite one.
-/

namespace ExactLP.Decimal

/-- The magnitude `m * 2 ^ q` of a finite binary64 value. -/
structure Magnitude where
  m : Nat
  q : Int
  /-- Holds when the gap to the value below is half the gap to the value above. -/
  narrow : Bool

/-- The sign bit; it is set for `-0.0` as well. -/
def isNegative (x : Float) : Bool :=
  x.toBits >>> 63 == 1

/-- The magnitude read off the bits.  An infinity or a NaN has none: test for them first. -/
def magnitude (x : Float) : Magnitude :=
  let e := ((x.toBits >>> 52) &&& 0x7FF).toNat
  let f := (x.toBits &&& 0xFFFFFFFFFFFFF).toNat
  if e = 0 then ⟨f, -1074, false⟩ else ⟨0x10000000000000 + f, (e : Int) - 1075, f == 0 && 1 < e⟩

/-- The rational number that a finite value is. -/
def exactValue (x : Float) : Rat :=
  let v := magnitude x
  let q := mkRat (v.m <<< v.q.toNat : Nat) (1 <<< (-v.q).toNat)
  if isNegative x then -q else q

/-- The integer nearest to `n / d`; an exact half goes to the even neighbour. -/
def roundQuotient (n d : Nat) : Nat :=
  let quotient := n / d
  let rest := 2 * (n % d)
  if rest < d then quotient
  else if d < rest then quotient + 1
  else if quotient % 2 = 0 then quotient else quotient + 1

/-- The integer nearest to a finite value; an exact half goes to the even neighbour. -/
def nearestInt (x : Float) : Int :=
  let v := magnitude x
  let n := roundQuotient (v.m <<< v.q.toNat) (1 <<< (-v.q).toNat)
  if isNegative x then -(n : Int) else n

/-- The exponent `e` with `2 ^ e ≤ n / d < 2 ^ (e + 1)`, for positive `n` and `d`. -/
def binaryExponent (n d : Nat) : Int :=
  let e : Int := (n.log2 : Int) - d.log2
  if n <<< (-e).toNat < d <<< e.toNat then e - 1 else e

/-- The binary64 value nearest to `a / b`, ties to the even significand; `none` beyond the largest
finite value.  A quotient too small for a subnormal is a zero of the same sign. -/
def nearestFloat? (a : Int) (b : Nat) : Option Float :=
  let n := a.natAbs
  let top := if n = 0 then -1074 else binaryExponent n b - 52
  let q : Int := if top < -1074 then -1074 else top
  let m := roundQuotient (n <<< (-q).toNat) (b <<< q.toNat)
  let bits := if m < 0x10000000000000 then m else ((q + 1075).toNat <<< 52) + (m - 0x10000000000000)
  if 0x7FF0000000000000 ≤ bits then none
  else some (Float.ofBits (UInt64.ofNat (if a < 0 then 0x8000000000000000 + bits else bits)))

end ExactLP.Decimal
