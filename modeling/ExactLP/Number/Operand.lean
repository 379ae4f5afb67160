import ExactLP.Number.Ratio

/-!
# Number.Operand — what a number may be given as

A number is given as an integer, a truth value, a float, a fraction or a ratio; anything else is
refused by its kind.

* `resolve`: a float becomes the fraction with the first denominator of `denominators` that makes it
  an integer to within `tolerance`, and otherwise with denominator 10¹⁰.
* `Operand.toRatio`: the ratio of an operand; a ratio is given back as it is.
* `Operand.value`: the rational number of an operand.
-/

namespace ExactLP

/-- A value that stands where a number is asked for. -/
inductive Operand where
  | int (n : Int)
  | bool (b : Bool)
  | float (x : Float)
  /-- A fraction in lowest terms with a positive denominator. -/
  | fraction (num : Int) (den : Nat)
  | ratio (r : Ratio)
  /-- No number; `kind` says what it is. -/
  | other (kind : String)

/-! ## Floats -/

/-- How far from an integer a multiple of a float may be. -/
def tolerance : Float := 1e-10

/-- The denominators tried for a float, in order. -/
def denominators : List Nat :=
  (List.range 98).map (· + 2) ++ (List.range 8).map (fun k => Nat.pow 10 (k + 2))

/-- The denominator that is taken when none of `denominators` will do. -/
def lastDenominator : Nat := 10000000000

/-- The nearest integer to a multiple of a float; a multiple beyond the floats has none. -/
def nearestMultiple (x : Float) (d : Nat) : Except NumberFault Int :=
  let y := x * Float.ofNat d
  if y.isInf then .error .beyondFloats else .ok (Decimal.nearestInt y)

/-- The multiple of `x` by `d` is within the tolerance of an integer. -/
def makesInteger (x : Float) (d : Nat) : Except NumberFault Bool := do
  let n ← nearestMultiple x d
  return (x * Float.ofNat d - Float.ofInt n).abs < tolerance

/-- The first of some denominators that makes `x` an integer. -/
def firstDenominator (x : Float) : List Nat → Except NumberFault Nat
  | [] => .ok lastDenominator
  | d :: rest => do if ← makesInteger x d then return d else firstDenominator x rest

/-- Numerator, denominator and residual of a float. -/
def resolve (x : Float) : Except NumberFault (Int × Nat × Float) :=
  if x.isNaN then .error .notANumber
  else if x.isInf then .error (.infinite (x < 0))
  else if x == 0 then .ok (0, 1, 0)
  else if x == 1 then .ok (1, 1, 0)
  else do
    let d ← firstDenominator x denominators
    let n ← nearestMultiple x d
    match Decimal.nearestFloat? n d with
    | some value => return (n, d, x - value)
    | none => throw .beyondFloats

namespace Operand

/-- The integer that an operand is, if it is given as one. -/
def integer? : Operand → Option Int
  | int n => some n
  | bool b => some (if b then 1 else 0)
  | _ => none

/-- The operand is a number of some kind. -/
def isNumber : Operand → Bool
  | other _ => false
  | _ => true

/-- The text of an operand. -/
def text : Operand → String
  | int n => toString n
  | bool b => if b then "True" else "False"
  | float x => Decimal.floatText x
  | fraction num den => fractionText num den
  | ratio r => r.text
  | other kind => kind

/-- The ratio of an operand; a ratio is given back as it is. -/
def toRatio : Operand → Factoring Ratio
  | int n => Ratio.computed n 1
  | bool b => Ratio.computed (if b then 1 else 0) 1
  | float x => do
    let (num, den, residual) ← resolve x
    Ratio.reduce num den residual
  | fraction num den => Ratio.computed num den
  | ratio r => return r
  | other kind => throw (.unsuitable kind)

/-- The rational number of an operand. -/
def value : Operand → Except NumberFault Rat
  | int n => .ok n
  | bool b => .ok (if b then 1 else 0)
  | float x => do
    let (num, den, _) ← resolve x
    return mkRat num den
  | fraction num den => .ok (mkRat num den)
  | ratio r => .ok r.toRat
  | other kind => .error (.unsuitable kind)

end Operand

/-! ## Building ratios -/

namespace Ratio

/-- A ratio reduced once more; its residual stays. -/
def copy (x : Ratio) : Factoring Ratio := reduce x.num x.den x.residual

/-- The ratio of one operand, newly built. -/
def ofOperand : Operand → Factoring Ratio
  | .ratio r => r.copy
  | a => a.toRatio

/-- The ratio of two operands: of two integers directly, of others by division. -/
def ofPair (a b : Operand) : Factoring Ratio :=
  match a.integer?, b.integer? with
  | some m, some n => if n = 0 then throw (.zeroDenominator a.text b.text) else computed m n
  | _, _ => do
    let quotient ← (← a.toRatio).div (← b.toRatio)
    computed quotient.num quotient.den

end Ratio

/-- The fraction that an operand alone stands for; a float stands for its exact value. -/
def Operand.asFraction : Operand → Except NumberFault Operand
  | .int n => .ok (.fraction n 1)
  | .bool b => .ok (.fraction (if b then 1 else 0) 1)
  | .fraction num den => .ok (.fraction num den)
  | .float x =>
    if x.isNaN then .error .noFraction
    else if x.isInf then .error .beyondFloats
    else .ok (.fraction (Decimal.exactValue x).num (Decimal.exactValue x).den)
  | .other "str" => .error .noFraction
  | .ratio _ | .other _ => .error .unsupported

/-- A fraction given by its parts, in lowest terms; the parts are integers or fractions. -/
def Operand.ofParts : Operand → Operand → Except NumberFault Operand
  | a, b => do
    let some (m, d) := parts? a | throw .unsupported
    let some (n, e) := parts? b | throw .unsupported
    if n = 0 then throw .zeroFraction
    let q := mkRat (m * e) d / (n : Rat)
    return .fraction q.num q.den
where
  parts? : Operand → Option (Int × Nat)
    | .fraction num den => some (num, den)
    | a => a.integer?.map (·, 1)

/-! ## Operators between a ratio and an operand -/

/-- The four operations of arithmetic. -/
inductive Arithmetic where
  | add | sub | mul | div

/-- The six relations. -/
inductive Relation where
  | eq | ne | lt | le | gt | ge

namespace Arithmetic

/-- The operation on two ratios. -/
def apply : Arithmetic → Ratio → Ratio → Factoring Ratio
  | add => Ratio.add
  | sub => Ratio.sub
  | mul => Ratio.mul
  | div => Ratio.div

/-- The operation with a ratio on the left. -/
def onLeft (op : Arithmetic) (x : Ratio) (y : Operand) : Factoring Ratio :=
  if y.isNumber then do op.apply x (← y.toRatio) else throw .unsupported

/-- The operation with a ratio on the right.  A sum or a product with an operand that is no ratio is
taken with the ratio in front. -/
def onRight (op : Arithmetic) (y : Operand) (x : Ratio) : Factoring Ratio :=
  match op, y with
  | _, .ratio r => op.apply r x
  | add, _ => onLeft add x y
  | mul, _ => onLeft mul x y
  | _, _ => if y.isNumber then do op.apply (← y.toRatio) x else throw .unsupported

end Arithmetic

namespace Relation

/-- The relation that holds of `y, x` when this one holds of `x, y`. -/
def swapped : Relation → Relation
  | eq => eq
  | ne => ne
  | lt => gt
  | le => ge
  | gt => lt
  | ge => le

/-- What the relation says of the sign of a difference. -/
def ofSign : Relation → Int → Bool
  | eq, d => d == 0
  | ne, d => d != 0
  | lt, d => d < 0
  | le, d => d ≤ 0
  | gt, d => 0 < d
  | ge, d => 0 ≤ d

/-- A ratio equals an operand.  No ratio equals something that is no number, a NaN or an infinity. -/
def equals (x : Ratio) : Operand → Factoring Bool
  | .other _ => return false
  | .float y => if y.isFinite then return x.same (← (Operand.float y).toRatio) else return false
  | y => return x.same (← y.toRatio)

/-- The relation between a ratio on the left and an operand; only numbers are ordered. -/
def holds : Relation → Ratio → Operand → Factoring Bool
  | eq, x, y => equals x y
  | ne, x, y => return !(← equals x y)
  | rel, x, y =>
    if y.isNumber then return rel.ofSign (x.difference (← y.toRatio)) else throw .unsupported

end Relation

/-- The ratios of some operands without repetitions, by first occurrence. -/
def distinctRatios (xs : List Ratio) : List Ratio :=
  xs.foldl (fun seen x => if seen.any x.same then seen else seen ++ [x]) []

end ExactLP
