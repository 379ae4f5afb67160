import ExactLP.Proofs.Standard.Splitting

/-!
# Proofs.Standard.Outweighing — what the constant is at least

The constant is no less than the product of any coefficient of an operand with the `|rhs / coefficient|` that an
unrelated row leaves the same variable.  It is no less than the largest coefficient of an operand either, as long as
some unrelated row bounds a variable of the operands; where none does, the constant is a fixed number, which a
coefficient may exceed.

* `Named.level`: the number under a name; `level_raised_le_iff`, `level_foldl_le_iff`: when it stays below a bound.
* `largest_le_iff`, `estimate_pos_iff`: the estimate, and when it is positive.
* `bigM?`: the constant, computed with divisions that may fail.
* `bigM_bounds`: what the constant is at least.
* `outgrown_coefficient`: a coefficient that exceeds the constant.
-/

namespace ExactLP

variable {operands others rows : List Row} {r : Row} {table own reach : Named Rat} {terms : Terms} {name k : String}
  {w : Rat → Rat} {q x : Rat} {xs : List Rat}

/-! ## Definitions -/

section Defs

/-- The row is built from some form, whose zero coefficients were dropped. -/
def Row.Built (r : Row) : Prop := ∃ terms cmp rhs label, r = Row.of terms cmp rhs label

/-- The number under a name of a table; a name that does not occur has zero. -/
def Named.level (table : Named Rat) (name : String) : Rat := (table.find? name).getD 0

/-- The largest product of a coefficient and what is left to its variable. -/
def estimate (own reach : Named Rat) : Rat := largest (own.map fun p => p.2 * reach.level p.1)

/-- The constant for given tables. -/
def constantOf (own reach : Named Rat) : Rat :=
  if 0 < estimate own reach then larger (estimate own reach) (largest (own.map Prod.snd)) else bigMFallback

/-- A quotient, unless the divisor is zero. -/
def quotient? (p q : Rat) : Option Rat := if q = 0 then none else some (p / q)

/-- The table of what unrelated rows leave to each variable, unless a coefficient is zero. -/
def reaches? (others : List Row) : Option (Named Rat) :=
  others.foldlM (fun table row =>
    row.terms.foldlM (fun table p =>
      (quotient? row.rhs p.2).map fun ratio => table.raise p.1 (magnitude ratio)) table) []

/-- The constant, unless some division for it is by zero. -/
def bigM? (operands others : List Row) : Option Rat := (reaches? others).map (constantOf (ownCoefficients operands))

/-- Some unrelated row with a right side that is not zero has a variable of an operand. -/
def Bounded (operands others : List Row) : Prop :=
  ∃ operand ∈ operands, ∃ other ∈ others, other.rhs ≠ 0 ∧ ∃ name ∈ operand.names, name ∈ other.names

end Defs

theorem Row.Built.nonzero (h : r.Built) : r.terms.Nonzero := by
  obtain ⟨terms, cmp, rhs, label, rfl⟩ := h
  exact fun p hp => by simpa using (List.mem_filter.mp hp).2

/-! ## Divisions -/

section Divisions

/-- A loop whose turns all go through goes through. -/
theorem foldlM_eq_some {α β : Type} {step : β → α → Option β} {f : β → α → β} (l : List α) (start : β)
    (h : ∀ s, ∀ a ∈ l, step s a = some (f s a)) : l.foldlM step start = some (l.foldl f start) := by
  induction l generalizing start with
  | nil => rfl
  | cons a rest ih =>
    rw [List.foldlM_cons, h start a List.mem_cons_self]
    exact ih (f start a) fun s b hb => h s b (List.mem_cons_of_mem a hb)

theorem quotient?_of_ne_zero (p : Rat) (hq : q ≠ 0) : quotient? p q = some (p / q) := if_neg hq

/-- Rows that are built without zero coefficients ask for no division by zero. -/
theorem reaches?_eq (h : ∀ row ∈ others, row.Built) : reaches? others = some (reaches others) := by
  refine foldlM_eq_some others [] fun table row hrow => ?_
  refine foldlM_eq_some row.terms table fun table p hp => ?_
  rw [quotient?_of_ne_zero row.rhs ((h row hrow).nonzero p hp)]
  rfl

end Divisions

/-! ## Tables of largest values -/

section Tables

theorem magnitude_eq_abs (q : Rat) : magnitude q = |q| := by
  unfold magnitude
  split
  · rename_i hneg
    exact (abs_of_neg hneg).symm
  · rename_i hnonneg
    exact (abs_of_nonneg (not_lt.mp hnonneg)).symm

theorem larger_eq_max (a b : Rat) : larger a b = max a b := by
  unfold larger
  split
  · rename_i hlt
    exact (max_eq_right hlt.le).symm
  · rename_i hge
    exact (max_eq_left (not_lt.mp hge)).symm

theorem level_raise (table : Named Rat) (name k : String) (x : Rat) :
    (table.raise name x).level k = if name = k then max (table.level k) x else table.level k := by
  unfold Named.raise Named.level
  split
  · rename_i heq
    rw [heq, Keyed.find?_put_self, larger_eq_max]
    rfl
  · rename_i hne
    rw [Keyed.find?_put_of_ne table hne]

/-- The number of a name is below a bound where it was before and where all that the form raises it to is. -/
theorem level_raised_le_iff : (raised w table terms).level k ≤ q ↔
    table.level k ≤ q ∧ ∀ p ∈ terms, p.1 = k → w p.2 ≤ q := by
  induction terms generalizing table with
  | nil => simp [raised]
  | cons p rest ih =>
    have hstep : (table.raise p.1 (w p.2)).level k ≤ q ↔ table.level k ≤ q ∧ (p.1 = k → w p.2 ≤ q) := by
      rw [level_raise]
      split
      · rename_i heq
        rw [max_le_iff, forall_prop_of_true heq]
      · rename_i hne
        rw [forall_prop_of_false hne, and_true]
    show (raised w (table.raise p.1 (w p.2)) rest).level k ≤ q ↔ _
    rw [ih, hstep, List.forall_mem_cons, and_assoc]

/-- The same for all rows, whose weights may depend on the row. -/
theorem level_foldl_le_iff (weight : Row → Rat → Rat) :
    (rows.foldl (fun table row => raised (weight row) table row.terms) table).level k ≤ q ↔
      table.level k ≤ q ∧ ∀ row ∈ rows, ∀ p ∈ row.terms, p.1 = k → weight row p.2 ≤ q := by
  induction rows generalizing table with
  | nil => simp
  | cons row rest ih => rw [List.foldl_cons, ih, level_raised_le_iff, List.forall_mem_cons, and_assoc]

theorem level_ownCoefficients_le_iff : (ownCoefficients operands).level k ≤ q ↔
    0 ≤ q ∧ ∀ operand ∈ operands, ∀ p ∈ operand.terms, p.1 = k → |p.2| ≤ q := by
  simp only [← magnitude_eq_abs]
  exact level_foldl_le_iff fun _ => magnitude

theorem level_reaches_le_iff : (reaches others).level k ≤ q ↔
    0 ≤ q ∧ ∀ other ∈ others, ∀ p ∈ other.terms, p.1 = k → |other.rhs / p.2| ≤ q := by
  simp only [← magnitude_eq_abs]
  exact level_foldl_le_iff fun other c => magnitude (other.rhs / c)

/-- A name with an entry is the name of an operand. -/
theorem exists_of_mem_ownCoefficients (h : name ∈ (ownCoefficients operands).names) :
    ∃ operand ∈ operands, name ∈ operand.names := by
  suffices hgen : ∀ table : Named Rat,
      name ∈ Keyed.names (operands.foldl (fun table row => raised magnitude table row.terms) table) →
        name ∈ table.names ∨ ∃ operand ∈ operands, name ∈ operand.names from
    (hgen [] h).resolve_left List.not_mem_nil
  clear h
  induction operands with
  | nil => exact fun table hname => Or.inl hname
  | cons operand rest ih =>
    intro table hname
    rcases ih _ hname with hraised | ⟨other, hother, hmem⟩
    · exact (mem_names_raised hraised).imp_right fun hmem => ⟨operand, List.mem_cons_self, hmem⟩
    · exact Or.inr ⟨other, List.mem_cons_of_mem _ hother, hmem⟩

end Tables

/-! ## The estimate -/

section Estimate

theorem largest_le_iff : largest xs ≤ q ↔ 0 ≤ q ∧ ∀ x ∈ xs, x ≤ q := by
  unfold largest
  suffices hgen : ∀ start, xs.foldl larger start ≤ q ↔ start ≤ q ∧ ∀ x ∈ xs, x ≤ q from hgen 0
  induction xs with
  | nil => simp
  | cons x rest ih =>
    intro start
    rw [List.foldl_cons, ih, larger_eq_max, max_le_iff, List.forall_mem_cons, and_assoc]

theorem largest_nonneg (xs : List Rat) : 0 ≤ largest xs := (largest_le_iff.mp le_rfl).1

theorem le_largest (h : x ∈ xs) : x ≤ largest xs := (largest_le_iff.mp le_rfl).2 x h

theorem level_eq_zero_or_mem (table : Named Rat) (k : String) : table.level k = 0 ∨ (k, table.level k) ∈ table := by
  unfold Named.level
  cases hfind : table.find? k with
  | none => exact Or.inl rfl
  | some c => exact Or.inr (Keyed.mem_of_find? hfind)

/-- The number of every name is at most the largest. -/
theorem level_le_largest (own : Named Rat) (k : String) : own.level k ≤ largest (own.map Prod.snd) := by
  rcases level_eq_zero_or_mem own k with hzero | hmem
  · exact hzero.trans_le (largest_nonneg _)
  · exact le_largest (List.mem_map.mpr ⟨_, hmem, rfl⟩)

theorem level_mul_level_le_estimate (own reach : Named Rat) (k : String) :
    own.level k * reach.level k ≤ estimate own reach := by
  rcases level_eq_zero_or_mem own k with hzero | hmem
  · rw [hzero, zero_mul]
    exact largest_nonneg _
  · exact le_largest (List.mem_map.mpr ⟨_, hmem, rfl⟩)

/-- The product for a term of an operand and a term of an unrelated row over the same variable. -/
theorem product_le_estimate {operand other : Row} {p t : String × Rat} (hoperand : operand ∈ operands)
    (hp : p ∈ operand.terms) (hother : other ∈ others) (ht : t ∈ other.terms) (hname : t.1 = p.1) :
    |p.2| * |other.rhs / t.2| ≤ estimate (ownCoefficients operands) (reaches others) := by
  obtain ⟨hnonneg, hown⟩ := level_ownCoefficients_le_iff.mp (le_refl ((ownCoefficients operands).level p.1))
  obtain ⟨-, hreach⟩ := level_reaches_le_iff.mp (le_refl ((reaches others).level p.1))
  exact (mul_le_mul (hown operand hoperand p hp rfl) (hreach other hother t ht hname) (abs_nonneg _) hnonneg).trans
    (level_mul_level_le_estimate _ _ _)

/-- The estimate is positive exactly where an unrelated row bounds a variable of the operands. -/
theorem estimate_pos_iff (hoperands : ∀ row ∈ operands, row.Built) (hothers : ∀ row ∈ others, row.Built) :
    0 < estimate (ownCoefficients operands) (reaches others) ↔ Bounded operands others := by
  constructor
  · intro hpos
    by_contra hno
    refine hpos.not_ge (largest_le_iff.mpr ⟨le_rfl, List.forall_mem_map.mpr fun entry hentry => ?_⟩)
    obtain ⟨operand, hoperand, hname⟩ := exists_of_mem_ownCoefficients (List.mem_map_of_mem hentry)
    -- no row leaves the variable anything but zero
    have hzero : (reaches others).level entry.1 = 0 := by
      refine le_antisymm (level_reaches_le_iff.mpr ⟨le_rfl, fun other hother t ht heq => ?_⟩)
        (level_reaches_le_iff.mp le_rfl).1
      have hrhs : other.rhs = 0 := by
        by_contra hrhs
        exact hno ⟨operand, hoperand, other, hother, hrhs, entry.1, hname, heq ▸ List.mem_map_of_mem ht⟩
      rw [hrhs, zero_div, abs_zero]
    rw [hzero, mul_zero]
  · rintro ⟨operand, hoperand, other, hother, hrhs, name, hown, hreach⟩
    obtain ⟨p, hp, rfl⟩ := List.mem_map.mp hown
    obtain ⟨t, ht, hname⟩ := List.mem_map.mp hreach
    have hcoefficient : p.2 ≠ 0 := (hoperands operand hoperand).nonzero p hp
    have hquotient : other.rhs / t.2 ≠ 0 := div_ne_zero hrhs ((hothers other hother).nonzero t ht)
    exact (mul_pos (abs_pos.mpr hcoefficient) (abs_pos.mpr hquotient)).trans_le
      (product_le_estimate hoperand hp hother ht hname)

end Estimate

/-! ## The constant -/

section Constant

theorem bigM_eq_constantOf (operands others : List Row) :
    bigM operands others = constantOf (ownCoefficients operands) (reaches others) := rfl

theorem estimate_le_constantOf (own reach : Named Rat) : estimate own reach ≤ constantOf own reach := by
  unfold constantOf
  split
  · rw [larger_eq_max]
    exact le_max_left _ _
  · rename_i hno
    exact (not_lt.mp hno).trans (by decide)

/-- A constant that comes from an estimate is no less than any number of the table. -/
theorem level_le_constantOf (hpos : 0 < estimate own reach) (k : String) : own.level k ≤ constantOf own reach := by
  rw [constantOf, if_pos hpos, larger_eq_max]
  exact (level_le_largest own k).trans (le_max_right _ _)

/-- For rows that are built without zero coefficients the constant takes no division by zero and is positive.  It is no
less than any product of a coefficient of an operand with what an unrelated row leaves the variable.  And it is no less
than every coefficient of an operand exactly where an unrelated row bounds a variable of the operands, or else where no
coefficient exceeds the fixed constant. -/
theorem bigM_bounds (hoperands : ∀ row ∈ operands, row.Built) (hothers : ∀ row ∈ others, row.Built) :
    bigM? operands others = some (bigM operands others) ∧ 0 < bigM operands others ∧
      ((∀ operand ∈ operands, ∀ p ∈ operand.terms, |p.2| ≤ bigM operands others) ↔
        Bounded operands others ∨ ∀ operand ∈ operands, ∀ p ∈ operand.terms, |p.2| ≤ bigMFallback) ∧
      ∀ operand ∈ operands, ∀ p ∈ operand.terms, ∀ other ∈ others, ∀ t ∈ other.terms, t.1 = p.1 →
        |p.2| * |other.rhs / t.2| ≤ bigM operands others := by
  refine ⟨?_, bigM_pos operands others, ?_, ?_⟩
  · rw [bigM?, reaches?_eq hothers]
    rfl
  · rw [bigM_eq_constantOf, ← estimate_pos_iff hoperands hothers]
    by_cases hpos : 0 < estimate (ownCoefficients operands) (reaches others)
    · refine iff_of_true (fun operand hoperand p hp => ?_) (Or.inl hpos)
      have hown := (level_ownCoefficients_le_iff.mp (le_refl ((ownCoefficients operands).level p.1))).2
      exact (hown operand hoperand p hp rfl).trans (level_le_constantOf hpos p.1)
    · rw [constantOf, if_neg hpos, or_iff_right hpos]
  · intro operand hoperand p hp other hother t ht hname
    exact (product_le_estimate hoperand hp hother ht hname).trans (estimate_le_constantOf _ _)

/-- The row `2 x - 3 y ≤ 4`. -/
def sampleOperand : Row := ⟨[("x", 2), ("y", -3)], .le, 4, none⟩

/-- The row `4 x ≤ 10`. -/
def sampleBound : Row := ⟨[("x", 4)], .le, 10, none⟩

/-- The second row leaves `x` the number `5/2`, so that the constant for the first is `5`. -/
theorem bigM_bounds_sample : sampleOperand.Built ∧ sampleBound.Built ∧ bigM? [sampleOperand] [sampleBound] = some 5 ∧
    Bounded [sampleOperand] [sampleBound] ∧ (∀ p ∈ sampleOperand.terms, |p.2| ≤ bigM [sampleOperand] [sampleBound]) ∧
    |(2 : Rat)| * |(10 : Rat) / 4| ≤ bigM [sampleOperand] [sampleBound] := by
  have hoperand : sampleOperand.Built :=
    ⟨_, _, _, _, show sampleOperand = Row.of [("x", 2), ("y", -3)] .le 4 none by decide⟩
  have hbound : sampleBound.Built := ⟨_, _, _, _, show sampleBound = Row.of [("x", 4)] .le 10 none by decide⟩
  have hbounded : Bounded [sampleOperand] [sampleBound] :=
    ⟨_, List.mem_singleton_self _, _, List.mem_singleton_self _, by decide, "x", by decide, by decide⟩
  obtain ⟨hdivided, -, hcoefficients, hproducts⟩ :=
    bigM_bounds (List.forall_mem_singleton.mpr hoperand) (List.forall_mem_singleton.mpr hbound)
  refine ⟨hoperand, hbound, ?_, hbounded, hcoefficients.mpr (Or.inl hbounded) _ (List.mem_singleton_self _), ?_⟩
  · rw [hdivided]
    decide +kernel
  · exact hproducts _ (List.mem_singleton_self _) ("x", 2) (by decide) _ (List.mem_singleton_self _) ("x", 4)
      (by decide) rfl

/-- The row `100000000000 x ≤ 1`. -/
def heavyOperand : Row := ⟨[("x", 100000000000)], .le, 1, none⟩

/-- Among no unrelated rows the constant for `100000000000 x ≤ 1` is less than its coefficient. -/
theorem outgrown_coefficient : heavyOperand.Built ∧ ∃ p ∈ heavyOperand.terms, bigM [heavyOperand] [] < |p.2| := by
  refine ⟨⟨_, _, _, _, show heavyOperand = Row.of [("x", 100000000000)] .le 1 none by decide⟩,
    ("x", 100000000000), by decide, ?_⟩
  have hconstant : bigM [heavyOperand] [] = 10000000000 := by decide +kernel
  rw [hconstant, abs_of_pos (by norm_num)]
  norm_num

end Constant

end ExactLP
