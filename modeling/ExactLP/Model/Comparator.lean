/-!
# Model.Comparator — the five comparators of a linear row

Each comparator has a text, a logical opposite and a mirror image.  The opposite of `<` is `>=`; an
equality is its own opposite, since no single row says that two sides differ.  The mirror image is the
comparator after both sides change sign.

* `holds_opposite`: the opposite of an inequality holds exactly where the inequality does not.
* `holds_mirrored`: the mirror image holds of the negated numbers exactly where the comparator does.
-/

namespace ExactLP

/-- How the left side of a row stands to its right side. -/
inductive Comparator where
  | lt | le | eq | ge | gt
deriving Repr, DecidableEq

namespace Comparator

/-- The comparators in the order in which they are listed to the reader. -/
def all : List Comparator := [lt, le, eq, ge, gt]

def text : Comparator → String
  | lt => "<"
  | le => "<="
  | eq => "="
  | ge => ">="
  | gt => ">"

/-- The comparator with a given text. -/
def ofText? (s : String) : Option Comparator :=
  all.find? fun c => c.text == s

theorem ofText?_text (c : Comparator) : ofText? c.text = some c := by
  cases c <;> decide

/-- The comparator of the negated row; an equality stays. -/
def opposite : Comparator → Comparator
  | lt => ge
  | le => gt
  | eq => eq
  | ge => lt
  | gt => le

@[simp]
theorem opposite_opposite (c : Comparator) : c.opposite.opposite = c := by
  cases c <;> rfl

/-- The comparator after both sides are multiplied by -1. -/
def mirrored : Comparator → Comparator
  | lt => gt
  | le => ge
  | eq => eq
  | ge => le
  | gt => lt

@[simp]
theorem mirrored_mirrored (c : Comparator) : c.mirrored.mirrored = c := by
  cases c <;> rfl

/-- The two strict comparators. -/
def strict : Comparator → Bool
  | lt | gt => true
  | _ => false

/-- The comparator without its strictness. -/
def inclusive : Comparator → Comparator
  | lt => le
  | gt => ge
  | c => c

/-- What a comparator says of two numbers. -/
def Holds (c : Comparator) (left right : Rat) : Prop :=
  match c with
  | lt => left < right
  | le => left ≤ right
  | eq => left = right
  | ge => right ≤ left
  | gt => right < left

instance (c : Comparator) (left right : Rat) : Decidable (c.Holds left right) := by
  cases c <;> unfold Holds <;> infer_instance

/-- The opposite comparator says the contrary, except of an equality. -/
theorem holds_opposite {c : Comparator} (hc : c ≠ eq) (a b : Rat) :
    c.opposite.Holds a b ↔ ¬c.Holds a b := by
  cases c with
  | lt => exact Rat.not_lt.symm
  | le => exact Rat.not_le.symm
  | eq => exact absurd rfl hc
  | ge => exact Rat.not_le.symm
  | gt => exact Rat.not_lt.symm

/-- The mirror image says the same of the negated numbers. -/
theorem holds_mirrored (c : Comparator) (a b : Rat) : c.mirrored.Holds (-a) (-b) ↔ c.Holds a b := by
  cases c <;> simp only [mirrored, Holds] <;> grind

end Comparator

end ExactLP
