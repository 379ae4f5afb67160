import ExactLP.Model.Row
import ExactLP.Text.Blank

/-!
# Model.Constraint — rows and the logical forms over them

A constraint is a row, an implication or an equivalence of two rows, or a junction of two rows by one
of four operators.  `Constraint.Holds` says what each means under an assignment.
-/

namespace ExactLP

/-- The operators that join two rows. -/
inductive Junction where
  | and | or | xor | nor
deriving Repr, DecidableEq

namespace Junction

def text : Junction → String
  | and => "and"
  | or => "or"
  | xor => "xor"
  | nor => "nor"

/-- The operator with a given text, in letters of either case and with blanks around it; `&` and `|`
stand for `and` and `or`.  The names hold ASCII letters only, so only those are lowered. -/
def ofText? (s : String) : Option Junction :=
  match String.ofList ((Text.trim s.toList).map Char.toLower) with
  | "and" | "&" => some and
  | "or" | "|" => some or
  | "xor" => some xor
  | "nor" => some nor
  | _ => none

theorem ofText?_text (j : Junction) : ofText? j.text = some j := by
  cases j <;> decide

/-- What an operator says of two statements. -/
def Holds (j : Junction) (p q : Prop) : Prop :=
  match j with
  | and => p ∧ q
  | or => p ∨ q
  | xor => (p ∧ ¬q) ∨ (q ∧ ¬p)
  | nor => ¬p ∧ ¬q

end Junction

/-- A row or a logical form over rows. -/
inductive Constraint where
  | plain (row : Row)
  | implies (antecedent consequent : Row)
  | equivalent (p q : Row)
  | joined (operator : Junction) (a b : Row)
deriving DecidableEq

namespace Constraint

/-- The rows that a constraint is made of. -/
def operands : Constraint → List Row
  | plain row => [row]
  | implies p q => [p, q]
  | equivalent p q => [p, q]
  | joined _ a b => [a, b]

/-- The constraint with a function applied to its rows. -/
def mapRows (f : Row → Row) : Constraint → Constraint
  | plain row => plain (f row)
  | implies p q => implies (f p) (f q)
  | equivalent p q => equivalent (f p) (f q)
  | joined operator a b => joined operator (f a) (f b)

/-- What a constraint says of an assignment. -/
def Holds (c : Constraint) (v : Assignment) : Prop :=
  match c with
  | plain row => row.Holds v
  | implies p q => p.Holds v → q.Holds v
  | equivalent p q => p.Holds v ↔ q.Holds v
  | joined operator a b => operator.Holds (a.Holds v) (b.Holds v)

end Constraint

end ExactLP
