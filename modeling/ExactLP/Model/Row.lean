import ExactLP.Model.Comparator
import ExactLP.Named

/-!
# Model.Row — linear rows

A row compares a linear form, named coefficients in order, with a number.  The forms of rows hold no
zero coefficient: `Row.of` drops them, and every row is built by it.

* `Terms.eval`, `Row.Holds`: what a form and a row mean under an assignment of the names.
* `Row.negated`, `Row.mirrored`: the logical negation, and the row with both sides times -1.
* `Row.holds_negated`, `Row.holds_mirrored`, `Row.holds_halves`: what these and the halves of a row say.
-/

namespace ExactLP

/-- A linear form: coefficients by name, in order. -/
abbrev Terms := Named Rat

/-- A number for every name. -/
abbrev Assignment := String → Rat

namespace Terms

/-- The coefficient of a name; a name that does not occur has coefficient zero. -/
def coefficient (terms : Terms) (name : String) : Rat :=
  (terms.find? name).getD 0

/-- The form without its zero coefficients. -/
def nonzero (terms : Terms) : Terms :=
  terms.filter fun p => p.2 != 0

/-- Every coefficient times `k`. -/
def scale (terms : Terms) (k : Rat) : Terms :=
  terms.map fun p => (p.1, p.2 * k)

/-- The value of the form under an assignment. -/
def eval (terms : Terms) (v : Assignment) : Rat :=
  terms.foldr (fun p total => p.2 * v p.1 + total) 0

theorem eval_cons (p : String × Rat) (terms : Terms) (v : Assignment) :
    eval (p :: terms) v = p.2 * v p.1 + eval terms v := rfl

/-- Terms that are zero add nothing to the value. -/
theorem eval_nonzero (terms : Terms) (v : Assignment) : terms.nonzero.eval v = terms.eval v := by
  induction terms with
  | nil => rfl
  | cons p rest ih =>
    by_cases h : p.2 = 0
    · rw [eval_cons, h, ← ih, Rat.zero_mul, Rat.zero_add]
      simp [nonzero, h]
    · rw [eval_cons, ← ih, ← eval_cons]
      simp [nonzero, h]

theorem eval_scale (terms : Terms) (k : Rat) (v : Assignment) :
    (terms.scale k).eval v = terms.eval v * k := by
  induction terms with
  | nil => exact (Rat.zero_mul k).symm
  | cons p rest ih =>
    rw [eval_cons, Rat.add_mul, ← ih, Rat.mul_assoc, Rat.mul_comm (v p.1), ← Rat.mul_assoc]
    rfl

end Terms

/-- A linear row `terms cmp rhs`, which may have a label. -/
structure Row where
  terms : Terms
  cmp : Comparator
  rhs : Rat
  label : Option String := none
deriving DecidableEq

namespace Row

/-- A row without zero coefficients. -/
def of (terms : Terms) (cmp : Comparator) (rhs : Rat) (label : Option String) : Row :=
  ⟨terms.nonzero, cmp, rhs, label⟩

/-- What a row says of an assignment. -/
def Holds (r : Row) (v : Assignment) : Prop :=
  r.cmp.Holds (r.terms.eval v) r.rhs

instance (r : Row) (v : Assignment) : Decidable (r.Holds v) :=
  inferInstanceAs (Decidable (r.cmp.Holds _ _))

/-- The row holds when a strict comparator is read as inclusive. -/
def HoldsInclusive (r : Row) (v : Assignment) : Prop :=
  r.cmp.inclusive.Holds (r.terms.eval v) r.rhs

/-- The names with a coefficient, in order. -/
def names (r : Row) : List String := r.terms.names

/-- The comparator is strict. -/
def strict (r : Row) : Bool := r.cmp.strict

/-- The row that holds where this one does not; an equality stays as it is. -/
def negated (r : Row) : Row := of r.terms r.cmp.opposite r.rhs r.label

/-- The same constraint with both sides multiplied by -1. -/
def mirrored (r : Row) : Row :=
  of (r.terms.scale (-1)) r.cmp.mirrored (-r.rhs) r.label

/-- The row turned so that its right side is not negative. -/
def normalized (r : Row) : Row := if r.rhs < 0 then r.mirrored else r

/-- The row with another comparator. -/
def withCmp (r : Row) (cmp : Comparator) : Row := of r.terms cmp r.rhs r.label

/-- The row with another form. -/
def withTerms (r : Row) (terms : Terms) : Row := of terms r.cmp r.rhs r.label

/-- An equality as its two halves; any other row alone. -/
def halves (r : Row) : List Row :=
  match r.cmp with
  | .eq => [r.withCmp .le, r.withCmp .ge]
  | _ => [r]

/-! ## What the rewritten rows say -/

theorem holds_of (terms : Terms) (cmp : Comparator) (rhs : Rat) (label : Option String) (v : Assignment) :
    (of terms cmp rhs label).Holds v ↔ cmp.Holds (terms.eval v) rhs := by
  rw [← Terms.eval_nonzero terms v]
  rfl

theorem holds_negated {r : Row} (h : r.cmp ≠ .eq) (v : Assignment) : r.negated.Holds v ↔ ¬r.Holds v :=
  (holds_of _ _ _ _ v).trans (Comparator.holds_opposite h _ _)

theorem holds_mirrored (r : Row) (v : Assignment) : r.mirrored.Holds v ↔ r.Holds v := by
  rw [mirrored, holds_of, Terms.eval_scale, Rat.mul_neg, Rat.mul_one]
  exact Comparator.holds_mirrored _ _ _

theorem holds_normalized (r : Row) (v : Assignment) : r.normalized.Holds v ↔ r.Holds v := by
  unfold normalized
  split
  · exact holds_mirrored r v
  · exact Iff.rfl

/-- A row says what its halves say together. -/
theorem holds_halves (r : Row) (v : Assignment) : (∀ half ∈ r.halves, half.Holds v) ↔ r.Holds v := by
  unfold halves
  split
  · rename_i h
    rw [List.forall_mem_cons, List.forall_mem_singleton, withCmp, withCmp, holds_of, holds_of, Holds, h]
    exact ⟨fun p => Rat.le_antisymm p.1 p.2, fun p => ⟨p ▸ Rat.le_refl, p ▸ Rat.le_refl⟩⟩
  · simp

end Row

end ExactLP
