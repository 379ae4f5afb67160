import ExactLP.Proofs.Standard.Implication

/-!
# Proofs.Standard.Conditions — which conditions a compilation leaves when it fails

Every form that takes one condition takes it after the last check, so that it takes none when it is refused.  An
equivalence is two implications with a condition each, and no condition is ever given back: when the second
implication is refused, the condition of the first one stays.

* `TakesOnly`: a computation that takes at most one condition, and none when it fails.
* `Compiler.takesOnly_implication`, `Compiler.takesOnly_disjunction`: the forms with at most one condition.
* `Compiler.error_of_equivalence`: how an equivalence fails.
* `Compiler.compile_atomic`: all logical forms.
* `Compiler.equivalence_not_atomic`: a refused equivalence that leaves a condition.
-/

namespace ExactLP

variable {a b p q : Row} {k : Compiler} {c : Constraint} {index : Int} {taken taken' : List String} {fault : Fault}

/-! ## Computations that take one condition -/

section Taking

variable {α β : Type}

/-- The computation takes at most the condition of an index, and none when it fails. -/
def TakesOnly (index : Int) (x : Compiling α) : Prop :=
  ∀ taken out taken', x.run taken = (out, taken') →
    taken' = taken ∨ (∃ a, out = .ok a) ∧ taken' = taken ++ [conditionName index]

variable {x : Compiling α} {f : α → Compiling β} {e : Except Fault α}

/-- A failure is without a trace. -/
theorem TakesOnly.eq_of_error (h : TakesOnly index x) (hrun : x.run taken = (.error fault, taken')) :
    taken' = taken := by
  refine (h taken _ taken' hrun).resolve_right ?_
  rintro ⟨⟨a, ha⟩, -⟩
  cases ha

/-- Results, faults and computations without conditions. -/
theorem takesOnly_of_unchanged (index : Int) (h : ∀ taken, (x.run taken).2 = taken) : TakesOnly index x := by
  intro taken out taken' hrun
  have hsame := h taken
  rw [hrun] at hsame
  exact Or.inl hsame

theorem takesOnly_bind_lift (h : ∀ a, TakesOnly index (f a)) : TakesOnly index (liftM e >>= f) := by
  intro taken out taken' hrun
  rw [run_bind, run_lift] at hrun
  cases e with
  | error fault => exact Or.inl (Prod.mk.inj hrun).2.symm
  | ok a => exact h a taken out taken' hrun

/-- A condition is noted when it is new, and what follows does not fail. -/
theorem takesOnly_takeCondition (index : Int) (g : String → α) :
    TakesOnly index (takeCondition index >>= fun condition => pure (g condition)) := by
  intro taken out taken' hrun
  obtain ⟨rfl, rfl⟩ := Prod.mk.inj hrun
  by_cases hold : taken.contains (conditionName index)
  · exact Or.inl (if_pos hold)
  · exact Or.inr ⟨⟨_, rfl⟩, if_neg hold⟩

end Taking

/-! ## Forms that take one condition -/

section Forms

namespace Compiler

theorem takesOnly_conditional (k : Compiler) (p q : Row) (origin : Constraint) (report : String) (index : Int) :
    TakesOnly index (k.conditional p q origin report index) := by
  unfold conditional
  dsimp only
  split
  · exact takesOnly_of_unchanged index fun _ => rfl
  · exact takesOnly_takeCondition index _

theorem takesOnly_implication (k : Compiler) (p q : Row) (index : Int) :
    TakesOnly index (k.implication p q index) := by
  refine takesOnly_bind_lift fun report => ?_
  dsimp only
  split
  · refine takesOnly_bind_lift fun truth => ?_
    cases truth with
    | always => exact takesOnly_of_unchanged index fun _ => rfl
    | never => exact takesOnly_of_unchanged index fun _ => rfl
    | literal name value =>
      dsimp only
      split
      · exact takesOnly_of_unchanged index fun _ => rfl
      · exact takesOnly_conditional k _ _ _ _ _
  · split
    · exact takesOnly_conditional k _ _ _ _ _
    · split
      · exact takesOnly_conditional k _ _ _ _ _
      · exact takesOnly_of_unchanged index fun _ => rfl

theorem takesOnly_disjunction (k : Compiler) (a b : Row) (index : Int) :
    TakesOnly index (k.disjunction a b index) :=
  takesOnly_takeCondition index _

/-- A junction that is not compiled as an equivalence. -/
theorem takesOnly_junction {operator : Junction} (h : operator = .xor → (k.isLiteral a && k.isLiteral b) = true) :
    TakesOnly index (k.junction operator a b index) := by
  cases operator with
  | and => exact takesOnly_of_unchanged index fun _ => rfl
  | nor => exact takesOnly_of_unchanged index fun _ => rfl
  | or =>
    unfold junction
    dsimp only
    split
    · exact takesOnly_bind_lift fun _ => takesOnly_bind_lift fun _ => takesOnly_of_unchanged index fun _ => rfl
    · exact takesOnly_disjunction k a b index
  | xor =>
    unfold junction
    dsimp only
    rw [if_pos (h rfl)]
    exact takesOnly_bind_lift fun _ => takesOnly_bind_lift fun _ => takesOnly_of_unchanged index fun _ => rfl

end Compiler

end Forms

/-! ## All forms -/

section Compile

namespace Compiler

/-- The rows that a form is compiled as an equivalence of. -/
def equivalents? (k : Compiler) : Constraint → Option (Row × Row)
  | .equivalent p q => some (p, q)
  | .joined .xor a b => if k.isLiteral a && k.isLiteral b then none else some (a, b.negated)
  | _ => none

/-- An equivalence that is refused leaves the conditions as they were, unless its first implication took a condition
and the second one is refused. -/
theorem error_of_equivalence (h : (k.equivalence p q index).run taken = (.error fault, taken')) :
    taken' = taken ∨ ∃ forth, (k.implication p q index).run taken = (.ok forth, taken') ∧
      (k.implication q p (index + 1)).run taken' = (.error fault, taken') ∧
      taken' = taken ++ [conditionName index] := by
  rcases error_of_run_bind h with hforth | ⟨forth, u, hforth, hrest⟩
  · exact Or.inl ((takesOnly_implication k p q index).eq_of_error hforth)
  -- joining the rows of both implications does not fail, so that the second one has
  · have hback : (k.implication q p (index + 1)).run u = (.error fault, taken') := by
      rcases error_of_run_bind hrest with hback | ⟨back, u', -, hpure⟩
      · exact hback
      · cases (Prod.mk.inj hpure).1
    obtain rfl := (takesOnly_implication k q p (index + 1)).eq_of_error hback
    exact (takesOnly_implication k p q index taken _ _ hforth).imp id fun htook => ⟨forth, hforth, hback, htook.2⟩

/-- A form that is refused leaves the conditions as they were.  The one exception is a form that is compiled as an
equivalence, the first implication of which took its condition before the second was refused. -/
theorem compile_atomic (h : (k.compile c index).run taken = (.error fault, taken')) :
    taken' = taken ∨ ∃ p q forth, k.equivalents? c = some (p, q) ∧
      (k.implication p q index).run taken = (.ok forth, taken') ∧
      (k.implication q p (index + 1)).run taken' = (.error fault, taken') ∧
      taken' = taken ++ [conditionName index] := by
  cases c with
  | plain row => exact Or.inl (Prod.mk.inj h).2.symm
  | implies p q => exact Or.inl ((takesOnly_implication k p q index).eq_of_error h)
  | equivalent p q => exact (error_of_equivalence h).imp id fun hpart => ⟨p, q, hpart.imp fun _ => And.intro rfl⟩
  | joined operator a b =>
    by_cases htable : operator = .xor → (k.isLiteral a && k.isLiteral b) = true
    · exact Or.inl ((takesOnly_junction htable).eq_of_error h)
    · obtain ⟨rfl, hliteral⟩ := Classical.not_imp.mp htable
      unfold compile junction at h
      dsimp only at h
      rw [if_neg hliteral] at h
      refine (error_of_equivalence h).imp id fun hpart => ⟨a, b.negated, hpart.imp fun _ => And.intro ?_⟩
      rw [equivalents?, if_neg hliteral]

theorem exists_fault {x : Compiling (List Row)} (h : (x.run taken).1.toOption = none) :
    ∃ fault taken', x.run taken = (.error fault, taken') := by
  rcases hrun : x.run taken with ⟨fault | rows, taken'⟩
  · exact ⟨fault, taken', rfl⟩
  · rw [hrun] at h
    cases h

/-- A compiler over numbers that need not be integers. -/
def realCompiler : Compiler := ⟨[], [], []⟩

def sampleAtLeast : Row := ⟨[("x", 1)], .ge, 2, none⟩

def sampleAtMost : Row := ⟨[("y", 1)], .le, 3, none⟩

def sampleMore : Row := ⟨[("x", 1)], .gt, 2, none⟩

/-- Over numbers, `x >= 2 → y <= 3` is refused. -/
theorem compile_atomic_sample :
    ∃ fault, (realCompiler.compile (.implies sampleAtLeast sampleAtMost) 0).run ["_y7"] = (.error fault, ["_y7"]) := by
  have hnone : ((realCompiler.compile (.implies sampleAtLeast sampleAtMost) 0).run ["_y7"]).1.toOption = none := by
    decide +kernel
  obtain ⟨fault, taken', hrun⟩ := exists_fault hnone
  rcases compile_atomic hrun with rfl | ⟨p, q, forth, hequivalents, -⟩
  · exact ⟨fault, hrun⟩
  · cases hequivalents

/-- Over numbers, `x > 2 ↔ y <= 3` is refused: `x > 2 → y <= 3` is compiled and takes a condition, and the other way
round there is no strict antecedent. -/
theorem equivalence_not_atomic :
    ∃ fault, (realCompiler.compile (.equivalent sampleMore sampleAtMost) 0).run [] = (.error fault, ["_y0"]) := by
  have hnone : ((realCompiler.compile (.equivalent sampleMore sampleAtMost) 0).run []).1.toOption = none := by
    decide +kernel
  have hleft : ((realCompiler.compile (.equivalent sampleMore sampleAtMost) 0).run []).2 = ["_y0"] := by
    decide +kernel
  obtain ⟨fault, taken', hrun⟩ := exists_fault hnone
  rw [hrun] at hleft
  exact ⟨fault, hleft ▸ hrun⟩

end Compiler

end Compile

end ExactLP
