import ExactLP.Proofs.Standard.Implication

/-!
# Proofs.Standard.Negation — what the operators that negate say

A `nor` keeps the negations of both operands.  An `xor` that is decided by no truth table says that the first operand
is equivalent to the negation of the second.  An equality has no row for its negation and is kept as it is, so that
these operators say of an equality what they should say of its contrary.

* `Row.HoldsNegated`: what the negation of a row says; `Row.holds_negated_iff`.
* `Compiler.iff_of_equivalence`: what the rows of an equivalence say.
* `Compiler.negating_junctions`: the rows of a `nor` and of such an `xor`.
* `Compiler.negated_equality_kept`: an equality that should not hold, and does.
-/

namespace ExactLP

variable {a b p q r : Row} {rows : List Row} {k : Compiler} {index : Int} {z : Assignment} {name : String}
  {taken taken' : List String}

/-! ## Negated rows -/

section Rows

namespace Row

/-- What the negation of a row says: the contrary, but the same of an equality. -/
def HoldsNegated (r : Row) (z : Assignment) : Prop := if r.cmp = .eq then r.Holds z else ¬r.Holds z

theorem holds_negated_iff (r : Row) (z : Assignment) : r.negated.Holds z ↔ r.HoldsNegated z := by
  unfold HoldsNegated
  split
  · rename_i heq
    rw [negated, holds_of, heq, Holds, heq]
    exact Iff.rfl
  · rename_i hne
    exact holds_negated hne z

theorem holdsNegated_iff (h : r.cmp ≠ .eq) : r.HoldsNegated z ↔ ¬r.Holds z := by
  rw [HoldsNegated, if_neg h]

theorem mem_names_of_negated (h : name ∈ r.negated.names) : name ∈ r.names :=
  (Terms.names_nonzero_sublist _).subset h

end Row

/-- Over integer values emitted rows say what the rows say. -/
theorem Compiler.holds_emit_iff (hintegral : ∀ name ∈ k.integral, z name ∈ integers) :
    (∀ row ∈ k.emit rows, row.Holds z) ↔ ∀ row ∈ rows, row.Holds z := by
  rw [emit, List.forall_mem_map]
  exact forall₂_congr fun _ _ => Row.holds_tighten hintegral

end Rows

/-! ## Equivalences -/

section Equivalences

namespace Compiler

variable (hbinary : ∀ name ∈ k.binary, IsBit (z name)) (hintegral : ∀ name ∈ k.integral, z name ∈ integers)
include hbinary hintegral

/-- The rows of an equivalence whose conditions are 0 or 1 say that it holds. -/
theorem iff_of_equivalence_rows (hrun : (k.equivalence p q index).run taken = (.ok rows, taken'))
    (hfree : ∀ row ∈ [p, q], conditionName index ∉ row.names ∧ conditionName (index + 1) ∉ row.names)
    (hforth : IsBit (z (conditionName index))) (hback : IsBit (z (conditionName (index + 1))))
    (hall : ∀ row ∈ rows, row.Holds z) : p.Holds z ↔ q.Holds z := by
  obtain ⟨forth, u, hrunforth, hrun⟩ := ok_of_run_bind hrun
  obtain ⟨back, u', hrunback, hrun⟩ := ok_of_run_bind hrun
  obtain rfl : forth ++ back = rows := Except.ok.inj (Prod.mk.inj hrun).1
  obtain ⟨hallforth, hallback⟩ := List.forall_mem_append.mp hall
  obtain ⟨hp, hq⟩ := List.forall_mem_cons.mp hfree
  rw [List.forall_mem_singleton] at hq
  constructor
  · exact (route_of_implication hrunforth).implies hbinary hintegral hp.1 hq.1 hforth hallforth
  · exact (route_of_implication hrunback).implies hbinary hintegral hq.2 hp.2 hback hallback

/-- An equivalence holds where some values of its conditions satisfy its rows. -/
theorem iff_of_equivalence (hrun : (k.equivalence p q index).run taken = (.ok rows, taken'))
    (hfree : ∀ row ∈ [p, q], conditionName index ∉ row.names ∧ conditionName (index + 1) ∉ row.names)
    (hsome : ∃ y y', IsBit y ∧ IsBit y' ∧ ∀ row ∈ rows, row.Holds
      (Function.update (Function.update z (conditionName index) y) (conditionName (index + 1)) y')) :
    p.Holds z ↔ q.Holds z := by
  obtain ⟨y, y', hy, hy', hall⟩ := hsome
  have hforth : ∀ name ∈ [conditionName index],
      IsBit (Function.update (Function.update z (conditionName index) y) (conditionName (index + 1)) y' name) :=
    forall_update (List.forall_mem_singleton.mpr (by rwa [Function.update_self])) hy' _
  have hsame : ∀ row ∈ [p, q], row.Holds
      (Function.update (Function.update z (conditionName index) y) (conditionName (index + 1)) y') ↔ row.Holds z :=
    fun row hrow => (Row.holds_update (hfree row hrow).2 _).trans (Row.holds_update (hfree row hrow).1 _)
  rw [← hsame p List.mem_cons_self, ← hsame q (by simp)]
  exact iff_of_equivalence_rows (forall_update (forall_update hbinary hy _) hy' _)
    (forall_update (forall_update hintegral hy.mem_integers _) hy'.mem_integers _) hrun hfree
    (hforth _ (List.mem_singleton_self _)) (by rwa [Function.update_self]) hall

end Compiler

end Equivalences

/-! ## Junctions that negate -/

section Junctions

namespace Compiler

theorem junction_nor_run (k : Compiler) (a b : Row) (index : Int) (taken : List String) :
    (k.junction .nor a b index).run taken = (.ok (k.emit [a.negated, b.negated]), taken) := rfl

theorem junction_xor_eq (h : ¬(k.isLiteral a = true ∧ k.isLiteral b = true)) (index : Int) :
    k.junction .xor a b index = k.equivalence a b.negated index := by
  rw [junction, if_neg (fun hboth => h (Bool.and_eq_true_iff.mp hboth))]

variable (hbinary : ∀ name ∈ k.binary, IsBit (z name)) (hintegral : ∀ name ∈ k.integral, z name ∈ integers)
include hbinary hintegral

/-- The rows of a `nor` say that the negations of both operands hold.  Where the operands of an `xor` are not both
over single binaries and name none of its conditions, its rows say, for any values of these, that the first operand
holds exactly where the negation of the second does.  So they say what the operator says unless an operand that is
negated is an equality. -/
theorem negating_junctions (a b : Row) (index : Int) (taken : List String) :
    (∃ rows, (k.junction .nor a b index).run taken = (.ok rows, taken) ∧
      ((∀ row ∈ rows, row.Holds z) ↔ a.HoldsNegated z ∧ b.HoldsNegated z) ∧
      (a.cmp ≠ .eq → b.cmp ≠ .eq → ((∀ row ∈ rows, row.Holds z) ↔ Junction.nor.Holds (a.Holds z) (b.Holds z)))) ∧
    ∀ rows taken', ¬(k.isLiteral a = true ∧ k.isLiteral b = true) →
      (k.junction .xor a b index).run taken = (.ok rows, taken') →
      (∀ row ∈ [a, b], conditionName index ∉ row.names ∧ conditionName (index + 1) ∉ row.names) →
      (∃ y y', IsBit y ∧ IsBit y' ∧ ∀ row ∈ rows, row.Holds
        (Function.update (Function.update z (conditionName index) y) (conditionName (index + 1)) y')) →
      (a.Holds z ↔ b.HoldsNegated z) ∧ (b.cmp ≠ .eq → Junction.xor.Holds (a.Holds z) (b.Holds z)) := by
  constructor
  · have hrows : (∀ row ∈ k.emit [a.negated, b.negated], row.Holds z) ↔ a.HoldsNegated z ∧ b.HoldsNegated z := by
      rw [holds_emit_iff hintegral, List.forall_mem_cons, List.forall_mem_singleton, Row.holds_negated_iff,
        Row.holds_negated_iff]
    refine ⟨_, junction_nor_run k a b index taken, hrows, fun ha hb => ?_⟩
    rw [hrows, Row.holdsNegated_iff ha, Row.holdsNegated_iff hb]
    exact Iff.rfl
  · intro rows taken' hliteral hrun hfree hsome
    obtain ⟨ha, hb⟩ := List.forall_mem_cons.mp hfree
    rw [List.forall_mem_singleton] at hb
    have hnegated : ∀ row ∈ [a, b.negated], conditionName index ∉ row.names ∧ conditionName (index + 1) ∉ row.names :=
      List.forall_mem_cons.mpr ⟨ha, List.forall_mem_singleton.mpr
        ⟨fun hmem => hb.1 (Row.mem_names_of_negated hmem), fun hmem => hb.2 (Row.mem_names_of_negated hmem)⟩⟩
    have hiff : a.Holds z ↔ b.HoldsNegated z := by
      rw [← Row.holds_negated_iff]
      exact iff_of_equivalence hbinary hintegral (junction_xor_eq hliteral index ▸ hrun) hnegated hsome
    refine ⟨hiff, fun hne => ?_⟩
    rw [Row.holdsNegated_iff hne] at hiff
    exact xor_iff_iff_not.mpr hiff

omit hbinary hintegral

def sampleAbove : Row := ⟨[("y", 1)], .gt, 3, none⟩

/-- At `x = 1` and `y = 5` exactly one of `x >= 3` and `y > 3` holds. -/
theorem negating_junctions_sample :
    ((sampleCompiler.junction .nor sampleIf sampleAbove 0).run [] =
        (.ok [⟨[("x", 1)], .le, 2, none⟩, ⟨[("y", 1)], .le, 3, none⟩], []) ∧
      ((∀ row ∈ [⟨[("x", 1)], .le, 2, none⟩, ⟨[("y", 1)], .le, 3, none⟩], Row.Holds row samplePoint) ↔
        Junction.nor.Holds (sampleIf.Holds samplePoint) (sampleAbove.Holds samplePoint))) ∧
    (∃ t, (sampleCompiler.junction .xor sampleIf sampleAbove 0).run [] =
        (.ok [⟨[("y", 1), ("_y0", -10)], .le, 3, none⟩, ⟨[("x", 1), ("_y0", 10)], .le, 12, none⟩,
          ⟨[("x", -1), ("_y1", -10)], .le, -3, none⟩, ⟨[("y", -1), ("_y1", 10)], .le, 6, none⟩], t)) ∧
      Junction.xor.Holds (sampleIf.Holds samplePoint) (sampleAbove.Holds samplePoint) := by
  obtain ⟨⟨rows, hrun, -, hnor⟩, hxor⟩ := negating_junctions (k := sampleCompiler) (z := samplePoint)
    (List.forall_mem_nil _) (fun name _ => samplePoint_mem_integers name) sampleIf sampleAbove 0 []
  have hnorrows : rows? (sampleCompiler.junction .nor sampleIf sampleAbove 0) =
      some [⟨[("x", 1)], .le, 2, none⟩, ⟨[("y", 1)], .le, 3, none⟩] := by
    decide +kernel
  have hxorrows : rows? (sampleCompiler.junction .xor sampleIf sampleAbove 0) =
      some [⟨[("y", 1), ("_y0", -10)], .le, 3, none⟩, ⟨[("x", 1), ("_y0", 10)], .le, 12, none⟩,
        ⟨[("x", -1), ("_y1", -10)], .le, -3, none⟩, ⟨[("y", -1), ("_y1", 10)], .le, 6, none⟩] := by
    decide +kernel
  obtain ⟨taken, hrun'⟩ := exists_run_of_rows? hnorrows
  obtain ⟨hout, rfl⟩ := Prod.mk.inj (hrun.symm.trans hrun')
  obtain rfl := Except.ok.inj hout
  obtain ⟨t, hrunxor⟩ := exists_run_of_rows? hxorrows
  have hmeans := hxor _ t (by decide +kernel) hrunxor (by decide +kernel)
    ⟨1, 1, Or.inr rfl, Or.inr rfl, by decide +kernel⟩
  exact ⟨⟨hrun, hnor Comparator.noConfusion Comparator.noConfusion⟩, ⟨t, hrunxor⟩, hmeans.2 Comparator.noConfusion⟩

/-- A compiler for integers `x` and `y`, where `y` is binary. -/
def mixedCompiler : Compiler := ⟨sampleCompiler.others, ["y"], ["x", "y"]⟩

/-- The row `y = 1`. -/
def keptRow : Row := ⟨[("y", 1)], .eq, 1, none⟩

def besideNor : Row := ⟨[("x", 1)], .gt, 3, none⟩

def besideXor : Row := ⟨[("x", 1)], .gt, 2, none⟩

/-- The point `x = 3`, `y = 1`. -/
def keptPoint : Assignment := fun name => if name = "x" then 3 else 1

/-- A negated equality is kept.  At `x = 3` and `y = 1` the rows of `x > 3 nor y = 1` hold, and those of
`x > 2 xor y = 1` with 0 for both conditions, although `y = 1` and `x > 2` hold there. -/
theorem negated_equality_kept :
    (∀ name ∈ mixedCompiler.binary, IsBit (keptPoint name)) ∧
    (∀ name ∈ mixedCompiler.integral, keptPoint name ∈ integers) ∧
    (∃ rows t, (mixedCompiler.junction .nor besideNor keptRow 0).run [] = (.ok rows, t) ∧
      (∀ row ∈ rows, row.Holds keptPoint) ∧
      ¬Junction.nor.Holds (besideNor.Holds keptPoint) (keptRow.Holds keptPoint)) ∧
    ∃ rows t, (mixedCompiler.junction .xor besideXor keptRow 0).run [] = (.ok rows, t) ∧
      (∃ y y', IsBit y ∧ IsBit y' ∧ ∀ row ∈ rows, row.Holds
        (Function.update (Function.update keptPoint (conditionName 0) y) (conditionName 1) y')) ∧
      ¬Junction.xor.Holds (besideXor.Holds keptPoint) (keptRow.Holds keptPoint) := by
  have hintegers : ∀ name ∈ mixedCompiler.integral, keptPoint name ∈ integers := by
    intro name _
    unfold keptPoint
    split
    · exact ⟨3, rfl⟩
    · exact one_mem integers
  have hnor : rows? (mixedCompiler.junction .nor besideNor keptRow 0) =
      some [⟨[("x", 1)], .le, 3, none⟩, keptRow] := by
    decide +kernel
  have hxor : rows? (mixedCompiler.junction .xor besideXor keptRow 0) =
      some [⟨[("y", 1), ("_y0", -10)], .le, 1, none⟩, ⟨[("y", -1), ("_y0", -10)], .le, -1, none⟩,
        ⟨[("x", 1), ("_y0", 10)], .le, 12, none⟩, ⟨[("x", -1), ("_y1", -10)], .le, -3, none⟩,
        ⟨[("y", 1), ("_y1", 10)], .le, 10, none⟩] := by
    decide +kernel
  obtain ⟨t, hrun⟩ := exists_run_of_rows? hnor
  obtain ⟨t', hrun'⟩ := exists_run_of_rows? hxor
  have hy : keptRow.Holds keptPoint := by decide +kernel
  have hx : besideXor.Holds keptPoint := by decide +kernel
  refine ⟨List.forall_mem_singleton.mpr (Or.inr rfl), hintegers, ⟨_, t, hrun, by decide +kernel, fun h => h.2 hy⟩,
    _, t', hrun', ⟨0, 0, Or.inl rfl, Or.inl rfl, by decide +kernel⟩, fun h => ?_⟩
  exact h.elim (fun hboth => hboth.2 hy) fun hboth => hboth.2 hx

end Compiler

end Junctions

end ExactLP
