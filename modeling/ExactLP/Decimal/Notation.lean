import ExactLP.Decimal.Shortest

/-!
# Decimal.Notation — how a number is written

A float is written with the fewest digits that read back to it: positionally, with at least one
decimal, when the exponent of its leading digit is between -4 and 15, and otherwise with one digit
before the point and a signed exponent of at least two digits.
-/

namespace ExactLP.Decimal

/-- A run of `n` zeros. -/
def zeros (n : Nat) : List Char :=
  List.replicate n '0'

/-- Digits with the point after the first `point` of them; places without a digit hold a zero. -/
def positional (ds : List Char) (point : Int) : List Char :=
  if point ≤ 0 then '0' :: '.' :: zeros (-point).toNat ++ ds
  else if ds.length ≤ point.toNat then ds ++ zeros (point.toNat - ds.length) ++ ['.', '0']
  else ds.take point.toNat ++ '.' :: ds.drop point.toNat

/-- Digits with the point after the first one, and the exponent of that one. -/
def scientific (ds : List Char) (exponent : Int) : List Char :=
  let lead := match ds with
    | d :: rest@(_ :: _) => d :: '.' :: rest
    | short => short
  let size := Nat.toDigits 10 exponent.natAbs
  lead ++ 'e' :: (if exponent < 0 then '-' else '+') :: zeros (2 - size.length) ++ size

/-- A decimal in the notation that its exponent asks for. -/
def Digits.layout (d : Digits) : List Char :=
  let ds := Nat.toDigits 10 d.digits
  let point := ds.length + d.exponent
  if -4 < point && point ≤ 16 then positional ds point else scientific ds (point - 1)

/-- The text of a float. -/
def floatText (x : Float) : String :=
  if x.isNaN then "nan"
  else
    let size := if x.isInf then "inf"
      else if (magnitude x).m = 0 then "0.0"
      else String.ofList (shortest (magnitude x)).layout
    if isNegative x then "-" ++ size else size

end ExactLP.Decimal
