import ExactLP.Standard.Integral
import ExactLP.Standard.Literal
import ExactLP.Standard.BigM

/-!
# Standard.Compiler — logical forms as linear rows

A logical form becomes linear rows over the names of its operands and, where needed, a condition
binary `_y<index>` with a constant that outweighs an operand.

* `junction`: `and` and `nor` keep or negate both operands; `or` and `xor` of two rows over single
  binaries are decided without a condition; any other `or` chooses by a condition and any other `xor`
  says that one operand is equivalent to the negation of the other.
* `implication`: a condition of 1 makes the antecedent fail, one of 0 enforces the consequent.
* `equivalence`: the implications both ways, with two conditions.

`Compiling` keeps the conditions that were taken before a fault.
-/

namespace ExactLP

/-- How the names of condition binaries start. -/
def conditionStem : String := "_y"

/-- Computations that take condition binaries. -/
abbrev Compiling := ExceptT Fault (StateM (List String))

/-- What logical forms are compiled against: unrelated rows, and the binary and integral names. -/
structure Compiler where
  others : List Row
  binary : List String
  integral : List String

/-- The condition binary of an index, noted when it is new. -/
def takeCondition (index : Int) : Compiling String := do
  let name := s!"{conditionStem}{index}"
  modify fun taken => if taken.contains name then taken else taken ++ [name]
  return name

/-- A row with a term for a condition added, and its right side moved.  The label is dropped. -/
def Row.withCondition (r : Row) (condition : String) (c shift : Rat) : Row :=
  Row.of (r.terms.put condition c) r.cmp (r.rhs + shift) none

/-- The sign of the slack that a condition gives: -1 for a comparator that bounds from above and 1 for one
that bounds from below. -/
def Comparator.slackSign : Comparator → Rat
  | lt | le => -1
  | _ => 1

namespace Compiler

variable (k : Compiler)

/-- The row has one term, over a binary. -/
def isLiteral (r : Row) : Bool :=
  match r.names with
  | [name] => k.binary.contains name
  | _ => false

/-- Rows for which no condition is needed, tightened. -/
def emit (rows : List Row) : List Row := rows.map fun r => r.tighten k.integral

/-! ## Junctions -/

/-- A refusal that reports a constraint by its text. -/
def refuse {α : Type} (reason : Reason) (c : Constraint) : Except Fault α := do
  throw (.refusing reason (← c.written) (some c))

/-- The junction `a or b` over single binaries. -/
def literalOr (c : Constraint) (a b : Truth) : Except Fault (List Row) :=
  match a, b with
  | .always, _ | _, .always => return []
  | .never, .never => refuse .infeasible c
  | .never, .literal name value | .literal name value, .never => return [literalRow name value]
  | .literal x v, .literal y w =>
    if x = y then return if v = w then [literalRow x v] else []
    else
      let sign (value : Bool) : Rat := if value then 1 else -1
      let negatives := bit (!v) + bit (!w)
      return [Row.of (Keyed.put [(x, sign v)] y (sign w)) .ge (1 - negatives) none]

/-- The junction `a xor b` over single binaries. -/
def literalXor (c : Constraint) (a b : Truth) : Except Fault (List Row) :=
  match a, b with
  | .always, .always | .never, .never => refuse .exclusiveContradiction c
  | .always, .never | .never, .always => return []
  | .always, .literal name value | .literal name value, .always => return [literalRow name (!value)]
  | .never, .literal name value | .literal name value, .never => return [literalRow name value]
  | .literal x v, .literal y w =>
    if x = y then if v = w then refuse .exclusiveContradiction c else return []
    else if v = w then return [Row.of (Keyed.put [(x, 1)] y 1) .eq 1 none]
    else return [Row.of (Keyed.put [(x, 1)] y (-1)) .eq 0 none]

/-- The junction `a or b` by a condition: 0 enforces `a` and 1 enforces `b`. -/
def disjunction (a b : Row) (index : Int) : Compiling (List Row) := do
  let m := bigM [a, b] k.others
  let condition ← takeCondition index
  let first := (a.tighten k.integral).halves.map fun half =>
    half.withCondition condition (m * half.cmp.slackSign) 0
  let second := (b.tighten k.integral).halves.map fun half =>
    half.withCondition condition (m * -half.cmp.slackSign) (m * -half.cmp.slackSign)
  return first ++ second

/-! ## Implications -/

/-- The implication `name = value → terms = 0`, with the binary itself in place of a condition. -/
def zeroConsequent (name : String) (value : Bool) (terms : Terms) (m : Rat) : List Row :=
  [1, -1].map fun sign =>
    let scaled := terms.scale sign
    let own := scaled.coefficient name
    if value then Row.of (scaled.put name (own + m)) .le m none
    else Row.of (scaled.put name (own - m)) .le 0 none

/-- The rows of an implication with a strict antecedent and a consequent in inclusive halves. -/
def conditionalRows (antecedent : Row) (halves : List Row) (m : Rat) (condition : String) : List Row :=
  let enforce (half : Row) : Row :=
    let sign : Rat := if half.cmp = .ge then 1 else -1
    Row.of ((half.terms.scale (-sign)).put condition (-m)) .le (half.rhs * -sign) none
  let sign : Rat := if antecedent.cmp = .gt then 1 else -1
  halves.map enforce ++
    [Row.of ((antecedent.terms.scale sign).put condition m) .le (m + antecedent.rhs * sign) none]

/-- The implication of a consequent by a strict antecedent. -/
def conditional (antecedent consequent : Row) (origin : Constraint) (report : String) (index : Int) :
    Compiling (List Row) := do
  let halves := consequent.halves.map fun half => half.tighten k.integral
  if halves.any Row.strict then throw (.refusing .unreadableImplication report (some origin))
  let m := bigM [antecedent, consequent] k.others
  let condition ← takeCondition index
  return conditionalRows antecedent halves m condition

/-- The implication `antecedent → consequent`. -/
def implication (antecedent consequent : Row) (index : Int) : Compiling (List Row) := do
  let origin := Constraint.implies antecedent consequent
  let report ← (origin.written : Except Fault String)
  if k.isLiteral antecedent then
    match ← antecedent.truth with
    | .always => return k.emit [consequent]
    | .never => return []
    | .literal name value =>
      if consequent.cmp = .eq ∧ consequent.rhs = 0 then
        return zeroConsequent name value consequent.terms (bigM [antecedent, consequent] k.others)
      else
        let strict := if value then Row.of [(name, 1)] .gt 0 none else Row.of [(name, 1)] .lt 1 none
        k.conditional strict consequent origin report index
  else if antecedent.strict then k.conditional antecedent consequent origin report index
  else
    match antecedent.loosen? k.integral with
    | some strict => k.conditional strict consequent origin report index
    | none => throw (.refusing .unreadableImplication report (some origin))

/-- The equivalence `p ↔ q`, as the two implications. -/
def equivalence (p q : Row) (index : Int) : Compiling (List Row) := do
  let forth ← k.implication p q index
  let back ← k.implication q p (index + 1)
  return forth ++ back

/-- Two rows joined by an operator. -/
def junction (operator : Junction) (a b : Row) (index : Int) : Compiling (List Row) := do
  let c := Constraint.joined operator a b
  match operator with
  | .and => return k.emit [a, b]
  | .nor => return k.emit [a.negated, b.negated]
  | .or =>
    if k.isLiteral a && k.isLiteral b then literalOr c (← a.truth) (← b.truth)
    else k.disjunction a b index
  | .xor =>
    if k.isLiteral a && k.isLiteral b then literalXor c (← a.truth) (← b.truth)
    else k.equivalence a b.negated index

/-- The rows of a logical form; a plain row is none. -/
def compile (c : Constraint) (index : Int) : Compiling (List Row) :=
  match c with
  | .plain _ => throw .notLogical
  | .implies p q => k.implication p q index
  | .equivalent p q => k.equivalence p q index
  | .joined operator a b => k.junction operator a b index

/-- The rows of the logical forms among some constraints.  Each form takes two indices, and each is
written out once it is compiled, which fails where a number is too large to be written. -/
def compileAll (index : Int) : List Constraint → Compiling (List Row)
  | [] => return []
  | .plain _ :: rest => compileAll index rest
  | c :: rest => do
    let rows ← k.compile c index
    let _ ← (c.written : Except Fault String)
    return rows ++ (← compileAll (index + 2) rest)

end Compiler

end ExactLP
