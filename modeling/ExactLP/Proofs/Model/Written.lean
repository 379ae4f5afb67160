import ExactLP.Model.Written

/-!
# Proofs.Model.Written — which rows can be written

A number that is no integer is written as its nearest float, which fails for one reason only: the number lies
beyond the largest float.  So a row can be written exactly when all its numbers can be.

* `GoesThrough`: a computation goes through exactly under a condition, and fails as beyond the floats otherwise.
* `Writable`: the number can be written; `writable_neg`: its sign does not matter.
* `Row.goesThrough_written`: the text of a row.
-/

namespace ExactLP

/-- The computation goes through when a condition holds, and meets a number beyond the floats otherwise. -/
def GoesThrough {α : Type} (x : Except NumberFault α) (P : Prop) : Prop :=
  (P ∧ ∃ a, x = .ok a) ∨ (¬P ∧ x = .error .beyondFloats)

/-- The number is an integer or not beyond the floats. -/
def Writable (q : Rat) : Prop := q.den = 1 ∨ (Decimal.nearestFloat? q.num q.den).isSome

variable {α β : Type} {x : Except NumberFault α} {f : α → Except NumberFault β} {P Q : Prop} {q c : Rat}
  {terms : Terms} {r : Row}

/-! ## Rules -/

section Rules

theorem goesThrough_pure (a : α) : GoesThrough (pure a) True := Or.inl ⟨trivial, a, rfl⟩

theorem GoesThrough.bind (h : GoesThrough x P) (hf : ∀ a, GoesThrough (f a) Q) : GoesThrough (x >>= f) (P ∧ Q) := by
  rcases h with ⟨hP, a, rfl⟩ | ⟨hP, rfl⟩
  · exact (hf a).imp (And.imp_left fun hQ => ⟨hP, hQ⟩) (And.imp_left fun hQ hboth => hQ hboth.2)
  · exact Or.inr ⟨fun hboth => hP hboth.1, rfl⟩

theorem GoesThrough.congr (h : GoesThrough x P) (hPQ : P ↔ Q) : GoesThrough x Q :=
  propext hPQ ▸ h

/-- What is only laid out further fails where it failed before. -/
theorem GoesThrough.bind_pure (h : GoesThrough x P) (g : α → β) : GoesThrough (x >>= fun a => pure (g a)) P :=
  (h.bind fun a => goesThrough_pure (g a)).congr (and_iff_left trivial)

end Rules

/-! ## Numbers -/

section Numbers

theorem isSome_nearestFloat?_neg (a : Int) (b : Nat) :
    (Decimal.nearestFloat? (-a) b).isSome = (Decimal.nearestFloat? a b).isSome := by
  unfold Decimal.nearestFloat?
  simp only [Int.natAbs_neg, apply_ite Option.isSome, Option.isSome_some]

theorem writable_neg (q : Rat) : Writable (-q) ↔ Writable q := by
  unfold Writable
  rw [Rat.neg_den, Rat.neg_num, isSome_nearestFloat?_neg]

theorem goesThrough_numberText (q : Rat) : GoesThrough (numberText q) (Writable q) := by
  unfold numberText Writable nearestFloat
  split
  · rename_i hint
    exact Or.inl ⟨Or.inl hint, _, rfl⟩
  · rename_i hint
    cases hfloat : Decimal.nearestFloat? q.num q.den with
    | some value => exact Or.inl ⟨Or.inr rfl, _, rfl⟩
    | none => exact Or.inr ⟨not_or.mpr ⟨hint, Bool.false_ne_true⟩, rfl⟩

theorem goesThrough_coefficientText (c : Rat) : GoesThrough (coefficientText c) (Writable c) := by
  unfold coefficientText
  split
  · rename_i hone
    exact Or.inl ⟨Or.inl (hone ▸ rfl), _, rfl⟩
  · split
    · rename_i hone
      exact Or.inl ⟨Or.inl (hone ▸ rfl), _, rfl⟩
    · exact (goesThrough_numberText c).bind_pure _

end Numbers

/-! ## Rows and constraints -/

section Rows

theorem Terms.goesThrough_laterTexts (terms : Terms) :
    GoesThrough terms.laterTexts (∀ p ∈ terms, Writable p.2) := by
  induction terms with
  | nil => exact (goesThrough_pure []).congr (by simp)
  | cons p rest ih =>
    refine ((goesThrough_coefficientText p.2).bind fun text => ih.bind_pure _).congr ?_
    rw [List.forall_mem_cons]

theorem Terms.goesThrough_nonzeroText (terms : Terms) :
    GoesThrough terms.nonzeroText (∀ p ∈ terms, Writable p.2) := by
  cases terms with
  | nil => exact (goesThrough_pure []).congr (by simp)
  | cons p rest =>
    refine ((goesThrough_coefficientText p.2).bind fun text => (goesThrough_laterTexts rest).bind_pure _).congr ?_
    rw [List.forall_mem_cons]

/-- The numbers of a row that are written. -/
def Row.Writable (r : Row) : Prop := (∀ p ∈ r.terms.nonzero, ExactLP.Writable p.2) ∧ ExactLP.Writable r.rhs

theorem Row.goesThrough_written (r : Row) : GoesThrough r.written r.Writable := by
  unfold Row.written Terms.written
  exact ((Terms.goesThrough_nonzeroText _).bind_pure _).bind fun text => (goesThrough_numberText r.rhs).bind_pure _

theorem Constraint.goesThrough_written (c : Constraint) :
    GoesThrough c.written (∀ row ∈ c.operands, row.Writable) := by
  have hpair : ∀ (a b : Row) (layout : String → String → String),
      GoesThrough (a.written >>= fun s => b.written >>= fun t => pure (layout s t)) (∀ row ∈ [a, b], row.Writable) := by
    intro a b layout
    refine (a.goesThrough_written.bind fun s => b.goesThrough_written.bind_pure _).congr ?_
    rw [List.forall_mem_cons, List.forall_mem_singleton]
  cases c with
  | plain row => exact row.goesThrough_written.congr List.forall_mem_singleton.symm
  | implies p q => exact hpair p q _
  | equivalent p q => exact hpair p q _
  | joined operator a b => exact hpair a b _

end Rows

end ExactLP
