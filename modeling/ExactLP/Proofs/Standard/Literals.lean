import ExactLP.Proofs.Standard.Commutation
import ExactLP.Proofs.Standard.Implication

/-!
# Proofs.Standard.Literals — junctions of rows over single binaries are decided exactly

Over one binary a row is fixed or says that the binary has a value.  A junction of two such rows by `or` or by `xor`
is refused where no values of the binaries satisfy it, and its rows say exactly the junction where some do.  The
refusal reports the junction by its text, so that it is only made when the numbers can be written.

* `Decides`: an outcome that states a condition on the binaries exactly, or refuses it where it cannot be met.
* `Compiler.decides_literalOr`, `Compiler.decides_literalXor`: the truth tables.
* `Compiler.literal_junction_exact`: the junctions of two rows over single binaries.
* `Compiler.unwritable_contradiction`: a contradiction that fails for want of a text.
-/

namespace ExactLP

variable {a b : Row} {k : Compiler} {c : Constraint} {operator : Junction} {reason : Reason} {s t : Truth}
  {binary : List String} {P Q : Assignment → Prop} {outcome : Except Fault (List Row)} {z : Assignment}
  {x y : String} {v w : Bool} {q : Rat}

/-! ## Definitions -/

section Defs

/-- The variable of a truth value is one of some names. -/
def Truth.Over (t : Truth) (names : List String) : Prop := ∀ name value, t = literal name value → name ∈ names

/-- Why a junction of two rows over single binaries is refused when nothing satisfies it, for the operators that
look at the truth of their operands. -/
def Junction.contradiction? : Junction → Option Reason
  | or => some .infeasible
  | xor => some .exclusiveContradiction
  | _ => none

/-- Rows that say `P` of the values of some binaries, where some of these satisfy it, and a refusal where none do. -/
inductive Decides (binary : List String) (P : Assignment → Prop) (reason : Reason) (c : Constraint) :
    Except Fault (List Row) → Prop
  | rows {rows : List Row} (hsome : ∃ z, (∀ name ∈ binary, IsBit (z name)) ∧ P z)
      (hexact : ∀ z, (∀ name ∈ binary, IsBit (z name)) → ((∀ row ∈ rows, row.Holds z) ↔ P z)) :
      Decides binary P reason c (.ok rows)
  | refusal (hnone : ∀ z, (∀ name ∈ binary, IsBit (z name)) → ¬P z) :
      Decides binary P reason c (Compiler.refuse reason c)

end Defs

/-! ## Bits -/

section Bits

theorem isBit_bit (v : Bool) : IsBit (bit v) := by
  cases v
  · exact Or.inl rfl
  · exact Or.inr rfl

theorem IsBit.le_one (h : IsBit q) : q ≤ 1 := by
  rcases h with rfl | rfl
  · exact zero_le_one
  · exact le_rfl

theorem IsBit.exists_bit (h : IsBit q) : ∃ v, q = bit v := by
  rcases h with rfl | rfl
  · exact ⟨false, rfl⟩
  · exact ⟨true, rfl⟩

@[simp]
theorem bit_inj : bit v = bit w ↔ v = w := by
  cases v <;> cases w <;> simp [bit]

/-- A binary that does not have one value has the other. -/
theorem IsBit.eq_bit_iff_ne (h : IsBit q) (hvw : v ≠ w) : q = bit w ↔ q ≠ bit v := by
  obtain ⟨u, rfl⟩ := h.exists_bit
  obtain rfl := Bool.eq_not.mpr hvw.symm
  rw [ne_eq, bit_inj, bit_inj]
  exact Bool.eq_not

theorem Junction.holds_xor_iff (p q : Prop) : Junction.xor.Holds p q ↔ ¬(p ↔ q) := xor_iff_not_iff p q

end Bits

/-! ## Rows over one binary and over two -/

section Rows

/-- A literal row is an equality, which is read alike in both readings. -/
theorem holds_literalRow (name : String) (value : Bool) : (literalRow name value).Holds z ↔ z name = bit value :=
  holdsInclusive_literalRow name value

theorem holds_pair (hxy : x ≠ y) (p q : Rat) (cmp : Comparator) (rhs : Rat) :
    (Row.of (Keyed.put [(x, p)] y q) cmp rhs none).Holds z ↔ cmp.Holds (p * z x + q * z y) rhs := by
  have hnew : y ∉ Keyed.names [(x, p)] := fun h => hxy (List.mem_singleton.mp h).symm
  rw [Row.holds_of, Terms.eval_put_of_not_mem hnew, Terms.eval_cons]
  exact iff_of_eq (congrArg (cmp.Holds · rhs) (congrArg (· + _) (add_zero _)))

/-- A row over one binary has a truth value, which says the same. -/
theorem exists_truth (h : k.isLiteral a = true) :
    ∃ t, a.truth = .ok t ∧ t.Over k.binary ∧
      ∀ z, (∀ name ∈ k.binary, IsBit (z name)) → (a.Holds z ↔ t.Says z) := by
  obtain ⟨x, hx, hnames⟩ := Compiler.exists_of_isLiteral h
  obtain ⟨t, ht⟩ : ∃ t, a.truth = .ok t := by
    obtain ⟨terms, cmp, rhs, label⟩ := a
    obtain ⟨p, rfl, -⟩ := List.map_eq_singleton_iff.mp hnames
    exact ⟨_, rfl⟩
  refine ⟨t, ht, fun name value heq => ?_, fun z hz => (truth_spec h hz ht).1⟩
  -- the name of the literal does not depend on the assignment, so that any one will do
  have hmem := (truth_spec (z := fun _ => 0) h (fun _ _ => Or.inl rfl) ht).2.2 name value heq
  rw [hnames, List.mem_singleton] at hmem
  exact hmem ▸ hx

end Rows

/-! ## Outcomes that decide -/

section Deciding

namespace Decides

theorem of_valid (h : ∀ z, (∀ name ∈ binary, IsBit (z name)) → P z) : Decides binary P reason c (.ok []) :=
  .rows ⟨fun _ => 0, fun _ _ => Or.inl rfl, h _ fun _ _ => Or.inl rfl⟩
    fun z hz => iff_of_true (List.forall_mem_nil _) (h z hz)

theorem of_literal (h : ∀ z, (∀ name ∈ binary, IsBit (z name)) → (P z ↔ z x = bit v)) :
    Decides binary P reason c (.ok [literalRow x v]) := by
  refine .rows ⟨fun _ => bit v, fun _ _ => isBit_bit v, (h _ fun _ _ => isBit_bit v).mpr rfl⟩ fun z hz => ?_
  rw [List.forall_mem_singleton, holds_literalRow, h z hz]

/-- A row over two binaries that says a condition on two of their values. -/
theorem of_pair {F : Prop → Prop → Prop} {m n rhs : Rat} {cmp : Comparator} (hx : x ∈ binary) (hy : y ∈ binary)
    (hxy : x ≠ y) (hsome : ∃ p q, F (p = v) (q = w))
    (hrow : ∀ p q, cmp.Holds (m * bit p + n * bit q) rhs ↔ F (p = v) (q = w)) :
    Decides binary (fun z => F (z x = bit v) (z y = bit w)) reason c
      (.ok [Row.of (Keyed.put [(x, m)] y n) cmp rhs none]) := by
  refine .rows ?_ fun z hz => ?_
  · obtain ⟨p, q, hF⟩ := hsome
    refine ⟨fun name => bit (if name = x then p else q), fun _ _ => isBit_bit _, ?_⟩
    dsimp only
    rwa [if_pos rfl, if_neg hxy.symm, bit_inj, bit_inj]
  · obtain ⟨p, hp⟩ := (hz x hx).exists_bit
    obtain ⟨q, hq⟩ := (hz y hy).exists_bit
    rw [List.forall_mem_singleton, holds_pair hxy, hp, hq, bit_inj, bit_inj]
    exact hrow p q

theorem congr (h : Decides binary P reason c outcome)
    (hPQ : ∀ z, (∀ name ∈ binary, IsBit (z name)) → (P z ↔ Q z)) : Decides binary Q reason c outcome := by
  cases h with
  | rows hsome hexact =>
    obtain ⟨z, hz, hP⟩ := hsome
    exact .rows ⟨z, hz, (hPQ z hz).mp hP⟩ fun z hz => (hexact z hz).trans (hPQ z hz)
  | refusal hnone => exact .refusal fun z hz hQ => hnone z hz ((hPQ z hz).mpr hQ)

end Decides

namespace Compiler

/-- A refusal is made when the constraint can be written, and otherwise fails for want of its text. -/
theorem refuse_eq {α : Type} (reason : Reason) (c : Constraint) :
    ((∀ row ∈ c.operands, row.Writable) ∧
      ∃ report, (refuse reason c : Except Fault α) = .error (.refusing reason report (some c))) ∨
    (¬(∀ row ∈ c.operands, row.Writable) ∧
      (refuse reason c : Except Fault α) = .error (.number .beyondFloats)) := by
  unfold refuse
  rcases c.goesThrough_written with ⟨hwritable, report, htext⟩ | ⟨hwritable, htext⟩
  · rw [htext]
    exact Or.inl ⟨hwritable, report, rfl⟩
  · rw [htext]
    exact Or.inr ⟨hwritable, rfl⟩

end Compiler

namespace Decides

theorem exact {rows : List Row} (h : Decides binary P reason c (.ok rows))
    (hz : ∀ name ∈ binary, IsBit (z name)) : (∀ row ∈ rows, row.Holds z) ↔ P z := by
  generalize hout : Except.ok rows = outcome at h
  cases h with
  | rows hsome hexact => exact Except.ok.inj hout ▸ hexact z hz
  | refusal hnone => exact absurd hout.symm (Compiler.refuse_ne_ok _ _ _)

theorem exists_error_iff (h : Decides binary P reason c outcome) :
    (∃ fault, outcome = .error fault) ↔ ∀ z, (∀ name ∈ binary, IsBit (z name)) → ¬P z := by
  cases h with
  | rows hsome hexact =>
    obtain ⟨z, hz, hP⟩ := hsome
    exact iff_of_false (fun ⟨_, heq⟩ => by cases heq) fun hnone => hnone z hz hP
  | refusal hnone =>
    refine iff_of_true ?_ hnone
    rcases Compiler.refuse_eq (α := List Row) reason c with ⟨-, report, heq⟩ | ⟨-, heq⟩
    · exact ⟨_, heq⟩
    · exact ⟨_, heq⟩

theorem eq_of_error {fault : Fault} (h : Decides binary P reason c (.error fault)) :
    ((∀ row ∈ c.operands, row.Writable) → ∃ report, fault = .refusing reason report (some c)) ∧
      (¬(∀ row ∈ c.operands, row.Writable) → fault = .number .beyondFloats) := by
  generalize hout : Except.error fault = outcome at h
  cases h with
  | rows _ _ => cases hout
  | refusal _ =>
    rcases Compiler.refuse_eq (α := List Row) reason c with ⟨hwritable, report, heq⟩ | ⟨hwritable, heq⟩
    · exact ⟨fun _ => ⟨report, Except.error.inj (hout.trans heq)⟩, fun hnot => absurd hwritable hnot⟩
    · exact ⟨fun hyes => absurd hyes hwritable, fun _ => Except.error.inj (hout.trans heq)⟩

end Decides

end Deciding

/-! ## The truth tables -/

section Tables

namespace Compiler

section Pairs

variable (hx : x ∈ binary) (hy : y ∈ binary) (hxy : x ≠ y)
include hx hy hxy

/-- Two literals over different binaries, one of which holds. -/
theorem decides_or_row (v w : Bool) (c : Constraint) :
    Decides binary (fun z => z x = bit v ∨ z y = bit w) .infeasible c
      (literalOr c (.literal x v) (.literal y w)) := by
  rw [literalOr, if_neg hxy]
  refine .of_pair hx hy hxy ⟨v, w, Or.inl rfl⟩ fun p q => ?_
  -- the sixteen entries of the truth table, for both polarities of both literals
  cases v <;> cases w <;> cases p <;> cases q <;> norm_num [bit, Comparator.Holds]

/-- Two literals over different binaries, exactly one of which holds. -/
theorem decides_xor_row (v w : Bool) (c : Constraint) :
    Decides binary (fun z => ¬(z x = bit v ↔ z y = bit w)) .exclusiveContradiction c
      (literalXor c (.literal x v) (.literal y w)) := by
  have hsome : ∃ p q, ¬(p = v ↔ q = w) := ⟨v, !w, fun h => Bool.not_ne_self w (h.mp rfl)⟩
  rw [literalXor, if_neg hxy]
  split
  · rename_i hvw
    refine .of_pair (F := fun s t => ¬(s ↔ t)) hx hy hxy hsome fun p q => ?_
    rw [hvw, Comparator.Holds]
    cases w <;> cases p <;> cases q <;> norm_num [bit]
  · rename_i hvw
    refine .of_pair (F := fun s t => ¬(s ↔ t)) hx hy hxy hsome fun p q => ?_
    rw [Bool.eq_not.mpr hvw, Comparator.Holds]
    cases w <;> cases p <;> cases q <;> norm_num [bit]

end Pairs

variable (hs : s.Over binary) (ht : t.Over binary)
include hs ht

/-- The junction of two truth values by `or`. -/
theorem decides_literalOr (c : Constraint) :
    Decides binary (fun z => s.Says z ∨ t.Says z) .infeasible c (literalOr c s t) := by
  cases s with
  | always => exact .of_valid fun z _ => Or.inl trivial
  | never =>
    cases t with
    | always => exact .of_valid fun z _ => Or.inr trivial
    | never => exact .refusal fun z _ hor => hor.elim id id
    | literal y w => exact .of_literal fun z _ => or_iff_right id
  | literal x v =>
    have hx := hs x v rfl
    cases t with
    | always => exact .of_valid fun z _ => Or.inr trivial
    | never => exact .of_literal fun z _ => or_iff_left id
    | literal y w =>
      by_cases hxy : x = y
      · subst hxy
        rw [literalOr, if_pos rfl]
        split
        · rename_i hvw
          exact hvw ▸ .of_literal fun z _ => or_self_iff
        · rename_i hvw
          exact .of_valid fun z hz => or_iff_not_imp_left.mpr ((hz x hx).eq_bit_iff_ne hvw).mpr
      · exact decides_or_row hx (ht y w rfl) hxy v w c

/-- The junction of two truth values by `xor`. -/
theorem decides_literalXor (c : Constraint) :
    Decides binary (fun z => ¬(s.Says z ↔ t.Says z)) .exclusiveContradiction c (literalXor c s t) := by
  cases s with
  | always =>
    cases t with
    | always => exact .refusal fun z _ hne => hne Iff.rfl
    | never => exact .of_valid fun z _ heq => heq.mp trivial
    | literal y w =>
      refine .of_literal fun z hz => ?_
      rw [(hz y (ht y w rfl)).eq_bit_iff_ne (Bool.not_ne_self w).symm]
      simp [Truth.Says]
  | never =>
    cases t with
    | always => exact .of_valid fun z _ heq => heq.mpr trivial
    | never => exact .refusal fun z _ hne => hne Iff.rfl
    | literal y w => exact .of_literal fun z _ => by simp [Truth.Says]
  | literal x v =>
    have hx := hs x v rfl
    cases t with
    | always =>
      refine .of_literal fun z hz => ?_
      rw [(hz x hx).eq_bit_iff_ne (Bool.not_ne_self v).symm]
      simp [Truth.Says]
    | never => exact .of_literal fun z _ => by simp [Truth.Says]
    | literal y w =>
      by_cases hxy : x = y
      · subst hxy
        rw [literalXor, if_pos rfl]
        split
        · rename_i hvw
          exact .refusal fun z _ hne => hne (hvw ▸ Iff.rfl)
        · rename_i hvw
          refine .of_valid fun z hz heq => ?_
          exact iff_not_self (heq.trans ((hz x hx).eq_bit_iff_ne hvw))
      · exact decides_xor_row hx (ht y w rfl) hxy v w c

end Compiler

end Tables

/-! ## Junctions of rows over single binaries -/

section Junctions

namespace Compiler

variable (ha : k.isLiteral a = true) (hb : k.isLiteral b = true) (hreason : operator.contradiction? = some reason)
include ha hb hreason

/-- A junction of two rows over single binaries takes no condition and decides what it says. -/
theorem exists_decides (index : Int) (taken : List String) :
    ∃ outcome, (k.junction operator a b index).run taken = (outcome, taken) ∧
      Decides k.binary (fun z => operator.Holds (a.Holds z) (b.Holds z)) reason (.joined operator a b) outcome := by
  obtain ⟨s, hs, hsover, hmeans⟩ := exists_truth ha
  obtain ⟨t, ht, htover, htmeans⟩ := exists_truth hb
  have hboth : (k.isLiteral a && k.isLiteral b) = true := by rw [ha, hb]; rfl
  cases operator with
  | and => cases hreason
  | nor => cases hreason
  | or =>
    obtain rfl := Option.some.inj hreason
    refine ⟨literalOr (.joined .or a b) s t, ?_, ?_⟩
    · rw [junction, if_pos hboth, hs, ht]
      rfl
    · refine (decides_literalOr hsover htover _).congr fun z hz => ?_
      rw [hmeans z hz, htmeans z hz]
      exact Iff.rfl
  | xor =>
    obtain rfl := Option.some.inj hreason
    refine ⟨literalXor (.joined .xor a b) s t, ?_, ?_⟩
    · rw [junction, if_pos hboth, hs, ht]
      rfl
    · refine (decides_literalXor hsover htover _).congr fun z hz => ?_
      rw [hmeans z hz, htmeans z hz]
      exact (Junction.holds_xor_iff _ _).symm

/-- A junction of two rows over single binaries by `or` or `xor` takes no condition.  Its rows say exactly the
junction of the binaries; it fails where, and only where, no values of these satisfy it, and then with a refusal
for its reason, or for want of the text of the refusal when some number cannot be written. -/
theorem literal_junction_exact (index : Int) (taken : List String) :
    ∃ outcome, (k.junction operator a b index).run taken = (outcome, taken) ∧
      (∀ rows, outcome = .ok rows → ∀ z : Assignment, (∀ name ∈ k.binary, IsBit (z name)) →
        ((∀ row ∈ rows, row.Holds z) ↔ operator.Holds (a.Holds z) (b.Holds z))) ∧
      ((∃ fault, outcome = .error fault) ↔
        ∀ z : Assignment, (∀ name ∈ k.binary, IsBit (z name)) → ¬operator.Holds (a.Holds z) (b.Holds z)) ∧
      ∀ fault, outcome = .error fault →
        ((∀ row ∈ [a, b], row.Writable) →
          ∃ report, fault = .refusing reason report (some (.joined operator a b))) ∧
        (¬(∀ row ∈ [a, b], row.Writable) → fault = .number .beyondFloats) := by
  obtain ⟨outcome, hrun, hdecides⟩ := exists_decides ha hb hreason index taken
  refine ⟨outcome, hrun, fun rows hrows z hz => ?_, hdecides.exists_error_iff, fun fault hfault => ?_⟩
  · exact (hrows ▸ hdecides).exact hz
  · exact (hfault ▸ hdecides).eq_of_error

omit ha hb hreason

/-- A compiler for two binaries. -/
def binaryCompiler : Compiler := ⟨[], ["x", "y"], ["x", "y"]⟩

def sampleLow : Row := ⟨[("x", 2)], .lt, 1, none⟩

def sampleHigh : Row := ⟨[("y", 3)], .ge, 1, none⟩

/-- Exactly one of `2x < 1` and `3y >= 1` holds where the bits `x` and `y` are equal. -/
theorem literal_junction_exact_sample :
    (binaryCompiler.junction .xor sampleLow sampleHigh 0).run [] =
        (.ok [⟨[("x", 1), ("y", -1)], .eq, 0, none⟩], []) ∧
      ∀ z : Assignment, (∀ name ∈ binaryCompiler.binary, IsBit (z name)) →
        (Row.Holds ⟨[("x", 1), ("y", -1)], .eq, 0, none⟩ z ↔
          Junction.xor.Holds (sampleLow.Holds z) (sampleHigh.Holds z)) := by
  obtain ⟨outcome, hrun, hexact, -, -⟩ := literal_junction_exact (k := binaryCompiler) (a := sampleLow)
    (b := sampleHigh) (by decide +kernel) (by decide +kernel) (rfl : Junction.contradiction? .xor = _) 0 []
  have hrows : rows? (binaryCompiler.junction .xor sampleLow sampleHigh 0) =
      some [⟨[("x", 1), ("y", -1)], .eq, 0, none⟩] := by
    decide +kernel
  obtain ⟨taken, hrun'⟩ := exists_run_of_rows? hrows
  obtain ⟨rfl, rfl⟩ := Prod.mk.inj (hrun.symm.trans hrun')
  refine ⟨hrun, fun z hz => ?_⟩
  rw [← hexact _ rfl z hz, List.forall_mem_singleton]

/-- The row `x >= 10 ^ 400 / 3`, whose right side is beyond the floats. -/
def unwritableRow : Row := ⟨[("x", 1)], .ge, 10 ^ 400 / 3, none⟩

/-- The row `y >= 2`. -/
def unmetRow : Row := ⟨[("y", 1)], .ge, 2, none⟩

/-- No bits satisfy `x >= 10 ^ 400 / 3 or y >= 2`, but it is not refused as infeasible: its text cannot be
written. -/
theorem unwritable_contradiction :
    (∀ z : Assignment, (∀ name ∈ binaryCompiler.binary, IsBit (z name)) →
      ¬Junction.or.Holds (unwritableRow.Holds z) (unmetRow.Holds z)) ∧
    (binaryCompiler.junction .or unwritableRow unmetRow 0).run [] = (.error (.number .beyondFloats), []) ∧
    (Fault.number .beyondFloats).kind ≠ .refused .infeasible := by
  have hnone : ∀ z : Assignment, (∀ name ∈ binaryCompiler.binary, IsBit (z name)) →
      ¬Junction.or.Holds (unwritableRow.Holds z) (unmetRow.Holds z) := by
    intro z hz hor
    have hx := (hz "x" (by decide)).le_one
    have hy := (hz "y" (by decide)).le_one
    have hlarge : (1 : Rat) < 10 ^ 400 / 3 := by decide +kernel
    simp only [Junction.Holds, Row.Holds, unwritableRow, unmetRow, Terms.eval, List.foldr, Comparator.Holds, one_mul,
      add_zero] at hor
    rcases hor with h | h
    · exact absurd (h.trans hx) hlarge.not_ge
    · linarith
  have hwritten : ¬∀ row ∈ [unwritableRow, unmetRow], row.Writable := by
    intro h
    have hrhs : Writable (10 ^ 400 / 3) := (h unwritableRow List.mem_cons_self).2
    revert hrhs
    unfold Writable
    decide +kernel
  obtain ⟨outcome, hrun, hdecides⟩ := exists_decides (k := binaryCompiler) (a := unwritableRow) (b := unmetRow)
    (by decide +kernel) (by decide +kernel) (rfl : Junction.contradiction? .or = _) 0 []
  obtain ⟨fault, rfl⟩ := hdecides.exists_error_iff.mpr hnone
  obtain rfl := hdecides.eq_of_error.2 hwritten
  exact ⟨hnone, hrun, FaultKind.noConfusion⟩

end Compiler

end Junctions

end ExactLP
