import ExactLP.Decimal.Binary

/-!
# Decimal.Shortest — the fewest digits that read back

A decimal *reads back* to a binary64 value when it lies among the reals that round to it.  Of the
decimals that read back, `shortest` takes one with the fewest digits, and of those the nearest.

* `Magnitude.readsBack`: membership in the rounding interval, on integers.
* `Magnitude.onGrid?`: the better of the two neighbours of a value on a decimal grid, if one reads back.
* `shortest`: the first grid, from one digit to seventeen, that has such a neighbour.
-/

namespace ExactLP.Decimal

/-- The decimal `digits * 10 ^ exponent`. -/
structure Digits where
  digits : Nat
  exponent : Int
deriving Repr, DecidableEq

/-- The value in units of `10 ^ g`, as a numerator `m * scale` over a denominator. -/
def Magnitude.scaleAt (x : Magnitude) (g : Int) : Nat × Nat :=
  (Nat.pow 10 (-g).toNat <<< x.q.toNat, Nat.pow 10 g.toNat <<< (-x.q).toNat)

/-- The decimal `c * 10 ^ g` lies among the reals that round to `x`; the ends belong to the even
significand. -/
def Magnitude.readsBack (x : Magnitude) (c : Nat) (g : Int) : Bool :=
  let (scale, unit) := x.scaleAt g
  let low := (if x.narrow then 4 * x.m - 1 else 4 * x.m - 2) * scale
  let high := (4 * x.m + 2) * scale
  let point := 4 * unit * c
  if x.m % 2 = 0 then low ≤ point && point ≤ high else low < point && point < high

/-- The least of the exponents tried at which `x` is below the power of ten. -/
def Magnitude.decimalExponent (x : Magnitude) : Int :=
  let guess := ((x.m.log2 + x.q) * 30103).fdiv 100000
  let below (k : Int) : Bool :=
    let (scale, unit) := x.scaleAt k
    x.m * scale < unit
  match (List.range 5).find? (fun i : Nat => below (guess - 1 + i)) with
  | some i => guess - 1 + i
  | none => guess + 4

/-- The better of the two neighbours of `x` in units of `10 ^ g`, if one of them reads back. -/
def Magnitude.onGrid? (x : Magnitude) (g : Int) : Option Nat :=
  let (scale, unit) := x.scaleAt g
  let below := x.m * scale / unit
  match x.readsBack below g, x.readsBack (below + 1) g with
  | true, false => some below
  | false, true => some (below + 1)
  | false, false => none
  | true, true => some (roundQuotient (x.m * scale) unit)

/-- Moves trailing zeros of the digits into the exponent, at most `fuel` of them. -/
def Digits.strip : Nat → Digits → Digits
  | 0, d => d
  | fuel + 1, d => if d.digits % 10 = 0 then strip fuel ⟨d.digits / 10, d.exponent + 1⟩ else d

/-- The decimal value of `x` written out in full. -/
def Magnitude.exact (x : Magnitude) : Digits :=
  if 0 ≤ x.q then ⟨x.m <<< x.q.toNat, 0⟩ else ⟨x.m * Nat.pow 5 (-x.q).toNat, x.q⟩

/-- The nearest of the shortest decimals that read back to the positive value `x`. -/
def shortest (x : Magnitude) : Digits :=
  let k := x.decimalExponent
  let onGrid (n : Nat) : Option Digits :=
    let g := k - (n + 1 : Nat)
    (x.onGrid? g).map fun c => Digits.strip 20 ⟨c, g⟩
  ((List.range 17).findSome? onGrid).getD x.exact

end ExactLP.Decimal
