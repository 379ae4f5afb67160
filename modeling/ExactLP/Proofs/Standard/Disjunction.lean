import ExactLP.Proofs.Standard.Implication

/-!
# Proofs.Standard.Disjunction — the rows of a disjunction say exactly the disjunction

The rows of a disjunction are the halves of both operands, each with a term for the condition that gives it slack:
those of the first when the condition is 1 and those of the second when it is 0.  The term replaces one that the
operand itself has for the condition, so that an operand is read with the condition at 0.

* `Row.HoldsSlackened`: a row that is given slack; `Row.holds_withCondition`: a row with a term for a condition.
* `Compiler.holds_disjunctionRows_iff`: the rows, for any value of the condition.
* `Compiler.disjunction_exact`: the rows and the disjunction.
* `Compiler.disjunction_captured`: a term of an operand for the condition is lost.
-/

namespace ExactLP

variable {r a b : Row} {terms : Terms} {k : Compiler} {z : Assignment} {condition : String} {m y : Rat}

/-! ## Definitions -/

section Defs

namespace Row

/-- The two sides of a row differ by less than `m`. -/
def Inside (r : Row) (m : Rat) (z : Assignment) : Prop := |r.terms.eval z - r.rhs| < m

instance (r : Row) (m : Rat) (z : Assignment) : Decidable (r.Inside m z) :=
  inferInstanceAs (Decidable (_ < _))

/-- The row holds when its bound is moved outwards by some slack. -/
def HoldsSlackened (r : Row) (slack : Rat) (z : Assignment) : Prop :=
  r.cmp.Holds (r.terms.eval z + slack * r.cmp.slackSign) r.rhs

end Row

/-- The rows of a disjunction. -/
def Compiler.disjunctionRows (k : Compiler) (a b : Row) (condition : String) : List Row :=
  let m := bigM [a, b] k.others
  ((a.tighten k.integral).halves.map fun half => half.withCondition condition (m * half.cmp.slackSign) 0) ++
    (b.tighten k.integral).halves.map fun half =>
      half.withCondition condition (m * -half.cmp.slackSign) (m * -half.cmp.slackSign)

end Defs

/-! ## Rows with slack -/

section Slack

theorem Terms.eval_update_zero (hnd : terms.names.Nodup) (condition : String) (z : Assignment) :
    terms.eval (Function.update z condition 0) = terms.eval z - terms.coefficient condition * z condition := by
  induction terms with
  | nil => exact (sub_eq_zero.mpr (zero_mul (z condition)).symm).symm
  | cons p rest ih =>
    rw [Keyed.names, List.map_cons, List.nodup_cons] at hnd
    rw [eval_cons, eval_cons, coefficient_cons, ih hnd.2]
    by_cases heq : p.1 = condition
    · rw [if_pos heq, heq, Function.update_self, coefficient_of_not_mem (heq ▸ hnd.1)]
      ring
    · rw [if_neg heq, Function.update_of_ne heq]
      ring

namespace Row

/-- The term for a condition replaces the one that the row has. -/
theorem holds_withCondition (hnd : r.names.Nodup) (q shift : Rat) :
    (r.withCondition condition q shift).Holds (Function.update z condition y) ↔
      r.cmp.Holds (r.terms.eval (Function.update z condition 0) + q * y) (r.rhs + shift) := by
  have heval : r.terms.eval (Function.update z condition y) +
      (q - r.terms.coefficient condition) * y = r.terms.eval (Function.update z condition 0) + q * y := by
    -- what the row has for the condition is what it loses at 0
    have hzero := Terms.eval_update_zero hnd condition (Function.update z condition y)
    rw [Function.update_idem, Function.update_self] at hzero
    rw [hzero]
    ring
  rw [withCondition, holds_of, Terms.eval_put, Function.update_self, heval]

theorem holdsSlackened_zero : r.HoldsSlackened 0 z ↔ r.Holds z := by
  rw [HoldsSlackened, zero_mul, add_zero, Holds]

/-- A row whose sides differ by less than the slack holds with it. -/
theorem Inside.holdsSlackened (hne : r.cmp ≠ .eq) (h : r.Inside m z) : r.HoldsSlackened m z := by
  obtain ⟨hlow, hhigh⟩ := abs_lt.mp h
  unfold HoldsSlackened
  cases hcmp : r.cmp <;> rw [hcmp] at hne <;>
    simp only [Comparator.Holds, Comparator.slackSign, ne_eq, not_true_eq_false] at hne ⊢ <;> linarith

/-- A condition that gives slack as it grows. -/
theorem holds_withCondition_iff_first (hnd : r.names.Nodup) :
    (r.withCondition condition (m * r.cmp.slackSign) 0).Holds (Function.update z condition y) ↔
      r.HoldsSlackened (m * y) (Function.update z condition 0) := by
  rw [holds_withCondition hnd, HoldsSlackened, add_zero, mul_right_comm]

/-- A condition that gives slack as it falls. -/
theorem holds_withCondition_iff_second (hnd : r.names.Nodup) :
    (r.withCondition condition (m * -r.cmp.slackSign) (m * -r.cmp.slackSign)).Holds
        (Function.update z condition y) ↔
      r.HoldsSlackened (m * (1 - y)) (Function.update z condition 0) := by
  rw [holds_withCondition hnd, HoldsSlackened, ← Comparator.holds_add_right _ (_ + m * (1 - y) * _) _
    (m * -r.cmp.slackSign)]
  refine iff_of_eq (congrArg (r.cmp.Holds · (r.rhs + m * -r.cmp.slackSign)) ?_)
  ring

theorem eval_half {half : Row} (h : half ∈ r.halves) (z : Assignment) : half.terms.eval z = r.terms.eval z := by
  unfold halves at h
  split at h
  · rcases List.mem_pair.mp h with rfl | rfl
    · exact Terms.eval_nonzero _ z
    · exact Terms.eval_nonzero _ z
  · rw [List.mem_singleton.mp h]

theorem rhs_half {half : Row} (h : half ∈ r.halves) : half.rhs = r.rhs := by
  unfold halves at h
  split at h
  · rcases List.mem_pair.mp h with rfl | rfl
    · rfl
    · rfl
  · rw [List.mem_singleton.mp h]

theorem Inside.half {half : Row} (h : r.Inside m z) (hhalf : half ∈ r.halves) : half.Inside m z := by
  rwa [Inside, eval_half hhalf, rhs_half hhalf]

end Row

end Slack

/-! ## The rows of a disjunction -/

section Exact

namespace Compiler

/-- Compiling a disjunction takes its condition and never fails. -/
theorem disjunction_run (k : Compiler) (a b : Row) (index : Int) (taken : List String) :
    ∃ taken', (k.disjunction a b index).run taken =
      (.ok (k.disjunctionRows a b (conditionName index)), taken') :=
  ⟨_, rfl⟩

/-- The condition gives slack to the halves of the first operand as it grows, and to those of the second as it
falls. -/
theorem holds_disjunctionRows_iff (ha : a.names.Nodup) (hb : b.names.Nodup) :
    (∀ row ∈ k.disjunctionRows a b condition, row.Holds (Function.update z condition y)) ↔
      (∀ half ∈ (a.tighten k.integral).halves,
        half.HoldsSlackened (bigM [a, b] k.others * y) (Function.update z condition 0)) ∧
      ∀ half ∈ (b.tighten k.integral).halves,
        half.HoldsSlackened (bigM [a, b] k.others * (1 - y)) (Function.update z condition 0) := by
  unfold disjunctionRows
  dsimp only
  rw [List.forall_mem_append, List.forall_mem_map, List.forall_mem_map]
  refine and_congr (forall₂_congr fun half hhalf => ?_) (forall₂_congr fun half hhalf => ?_)
  · exact Row.holds_withCondition_iff_first (Row.nodup_names_halves (Row.nodup_names_tighten ha _) half hhalf)
  · exact Row.holds_withCondition_iff_second (Row.nodup_names_halves (Row.nodup_names_tighten hb _) half hhalf)

/-- Halves without slack say what the operand says. -/
theorem holdsSlackened_zero_halves_iff (hintegral : ∀ name ∈ k.integral, z name ∈ integers) (r : Row) :
    (∀ half ∈ (r.tighten k.integral).halves, half.HoldsSlackened 0 z) ↔ r.Holds z := by
  rw [← Row.holds_tighten hintegral, ← Row.holds_halves]
  exact forall₂_congr fun _ _ => Row.holdsSlackened_zero

/-- Halves with a slack that outweighs the operand hold. -/
theorem holdsSlackened_halves (h : r.Inside m z) : ∀ half ∈ r.halves, half.HoldsSlackened m z :=
  fun _ hhalf => (h.half hhalf).holdsSlackened (Row.cmp_half hhalf)

variable (hintegral : ∀ name ∈ k.integral, z name ∈ integers)
include hintegral

/-- A condition of 0 enforces the first operand and one of 1 the second; where one of them holds and the constant
outweighs both, some value of the condition satisfies the rows.  The operands are read with the condition at 0,
which only matters to one that names it. -/
theorem disjunction_exact (ha : a.names.Nodup) (hb : b.names.Nodup) (index : Int) (taken : List String) :
    ∃ rows taken', (k.disjunction a b index).run taken = (.ok rows, taken') ∧
      ((∀ row ∈ rows, row.Holds (Function.update z (conditionName index) 0)) →
        a.Holds (Function.update z (conditionName index) 0)) ∧
      ((∀ row ∈ rows, row.Holds (Function.update z (conditionName index) 1)) →
        b.Holds (Function.update z (conditionName index) 0)) ∧
      (a.Holds (Function.update z (conditionName index) 0) ∨ b.Holds (Function.update z (conditionName index) 0) →
        (∀ row ∈ [a.tighten k.integral, b.tighten k.integral],
          row.Inside (bigM [a, b] k.others) (Function.update z (conditionName index) 0)) →
        ∃ y, IsBit y ∧ ∀ row ∈ rows, row.Holds (Function.update z (conditionName index) y)) := by
  obtain ⟨taken', hrun⟩ := disjunction_run k a b index taken
  have hints : ∀ name ∈ k.integral, Function.update z (conditionName index) 0 name ∈ integers :=
    forall_update hintegral (zero_mem integers) (conditionName index)
  refine ⟨_, taken', hrun, fun hall => ?_, fun hall => ?_, fun hor hinside => ?_⟩
  · have hfirst := ((holds_disjunctionRows_iff ha hb).mp hall).1
    rw [mul_zero] at hfirst
    exact (holdsSlackened_zero_halves_iff hints a).mp hfirst
  · have hsecond := ((holds_disjunctionRows_iff ha hb).mp hall).2
    rw [sub_self, mul_zero] at hsecond
    exact (holdsSlackened_zero_halves_iff hints b).mp hsecond
  · obtain ⟨hain, hbin⟩ := List.forall_mem_cons.mp hinside
    rw [List.forall_mem_singleton] at hbin
    rcases hor with hholds | hholds
    · refine ⟨0, Or.inl rfl, (holds_disjunctionRows_iff ha hb).mpr ⟨?_, ?_⟩⟩
      · rw [mul_zero]
        exact (holdsSlackened_zero_halves_iff hints a).mpr hholds
      · rw [sub_zero, mul_one]
        exact holdsSlackened_halves hbin
    · refine ⟨1, Or.inr rfl, (holds_disjunctionRows_iff ha hb).mpr ⟨?_, ?_⟩⟩
      · rw [mul_one]
        exact holdsSlackened_halves hain
      · rw [sub_self, mul_zero]
        exact (holdsSlackened_zero_halves_iff hints b).mpr hholds

omit hintegral

def sampleEither : Row := ⟨[("x", 1)], .lt, 3 / 2, none⟩

def sampleOther : Row := ⟨[("y", 1)], .eq, 7, none⟩

/-- The rows of `x < 3/2 or y = 7` over integers. -/
def sampleChoice : List Row :=
  [⟨[("x", 1), ("_y0", -10)], .le, 1, none⟩, ⟨[("y", 1), ("_y0", 10)], .le, 17, none⟩,
    ⟨[("y", 1), ("_y0", -10)], .ge, -3, none⟩]

/-- At `x = 1` and `y = 5` the first side of `x < 3/2 or y = 7` holds. -/
theorem disjunction_exact_sample :
    ∃ t, (sampleCompiler.disjunction sampleEither sampleOther 0).run [] = (.ok sampleChoice, t) ∧
      ∃ y, IsBit y ∧ ∀ row ∈ sampleChoice, row.Holds (Function.update samplePoint "_y0" y) := by
  obtain ⟨rows, t, hrun, -, -, hsatisfied⟩ := disjunction_exact (k := sampleCompiler) (a := sampleEither)
    (b := sampleOther) (fun name _ => samplePoint_mem_integers name) (by decide +kernel) (by decide +kernel) 0 []
  have hrows : rows? (sampleCompiler.disjunction sampleEither sampleOther 0) = some sampleChoice := by
    decide +kernel
  obtain ⟨t', hrun'⟩ := exists_run_of_rows? hrows
  obtain ⟨hout, rfl⟩ := Prod.mk.inj (hrun.symm.trans hrun')
  obtain rfl := Except.ok.inj hout
  exact ⟨t, hrun, hsatisfied (by decide +kernel) (by decide +kernel)⟩

def capturedEither : Row := ⟨[("x", 1)], .le, 0, none⟩

def capturedOther : Row := ⟨[("x", 1), ("_y0", -5)], .ge, 1, none⟩

/-- The term of an operand for the condition itself is lost: with 1 for all names the rows of
`x <= 0 or x - 5_y0 >= 1` hold, and the condition is 1, but the second operand does not hold. -/
theorem disjunction_captured :
    ∃ rows t, (sampleCompiler.disjunction capturedEither capturedOther 0).run [] = (.ok rows, t) ∧
      (∀ name ∈ sampleCompiler.integral, (fun _ => 1 : Assignment) name ∈ integers) ∧
      (∀ row ∈ rows, row.Holds (Function.update (fun _ => 1) (conditionName 0) 1)) ∧
      ¬capturedOther.Holds (Function.update (fun _ => 1) (conditionName 0) 1) := by
  have hrows : rows? (sampleCompiler.disjunction capturedEither capturedOther 0) =
      some [⟨[("x", 1), ("_y0", -10)], .le, 0, none⟩, ⟨[("x", 1), ("_y0", -10)], .ge, -9, none⟩] := by
    decide +kernel
  obtain ⟨t, hrun⟩ := exists_run_of_rows? hrows
  exact ⟨_, t, hrun, fun _ _ => one_mem integers, by decide +kernel, by decide +kernel⟩

end Compiler

end Exact

end ExactLP
