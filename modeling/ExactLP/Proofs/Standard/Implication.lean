import ExactLP.Proofs.Standard.Meaning

/-!
# Proofs.Standard.Implication — the rows of an implication say exactly the implication

An implication is compiled by way of a strict form of its antecedent and inclusive halves of its consequent.  A
condition of 0 enforces the halves and one of 1 refutes the strict form; the constant of the rows gives the other
side room.  So some value of the condition satisfies the rows only where the implication holds, and wherever it
holds and the constant outweighs the operands.

* `Row.margin`: how far a row is from failing; the rows of an implication bound such margins.
* `Compiler.strictForm?`, `Compiler.enforced`: the operands as the rows see them, which say what the operands say.
* `Compiler.Route`, `route_of_implication`: the ways to compile an implication.
* `Compiler.implication_exact`: the rows and the implication, where the operands do not name the condition.
* `Compiler.implication_captured`: an operand that names the condition is not enforced.
-/

namespace ExactLP

variable {r a p q strict : Row} {rows halves : List Row} {terms : Terms} {integral : List String} {k : Compiler}
  {index : Int} {z : Assignment} {name condition : String} {m : Rat} {taken taken' : List String}

/-! ## Definitions -/

section Defs

/-- The name of the condition of an index. -/
def conditionName (index : Int) : String := s!"{conditionStem}{index}"

namespace Row

/-- How far a row with a bound on one side is from failing, less than zero where the bound is passed. -/
def margin (r : Row) (z : Assignment) : Rat := r.cmp.slackSign * (r.terms.eval z - r.rhs)

/-- The two sides of a row differ by at most `m`. -/
def Within (r : Row) (m : Rat) (z : Assignment) : Prop := |r.terms.eval z - r.rhs| ≤ m

instance (r : Row) (m : Rat) (z : Assignment) : Decidable (r.Within m z) :=
  inferInstanceAs (Decidable (_ ≤ _))

end Row

namespace Compiler

/-- The consequent of an implication as its rows enforce it. -/
def enforced (k : Compiler) (q : Row) : List Row := q.halves.map fun half => half.tighten k.integral

/-- The row over a binary that is refuted in place of a literal. -/
def strictLiteral (name : String) (value : Bool) : Row :=
  if value then Row.of [(name, 1)] .gt 0 none else Row.of [(name, 1)] .lt 1 none

/-- The antecedent of an implication as its rows refute it, unless it is always true or never. -/
def strictForm? (k : Compiler) (p : Row) : Option Row :=
  if k.isLiteral p then
    match p.truth with
    | .ok (.literal name value) => some (strictLiteral name value)
    | _ => none
  else if p.strict then some p
  else p.loosen? k.integral

/-- The binary of the antecedent takes the place of a condition: the consequent sets a form to zero. -/
def IsDirect (k : Compiler) (p q : Row) : Prop := k.isLiteral p = true ∧ q.cmp = .eq ∧ q.rhs = 0

instance (k : Compiler) (p q : Row) : Decidable (k.IsDirect p q) :=
  inferInstanceAs (Decidable (_ ∧ _ ∧ _))

/-- The constant of an implication is as large as what the rewritten operands are off their right sides. -/
def Outweighs (k : Compiler) (p q : Row) (z : Assignment) : Prop :=
  ∀ strict, k.strictForm? p = some strict →
    if k.IsDirect p q then ∀ half ∈ k.enforced q, half.Within (bigM [p, q] k.others) z
    else ∀ row ∈ strict :: k.enforced q, row.Within (bigM [strict, q] k.others) z

/-- The ways to compile an implication, and the rows of each. -/
inductive Route (k : Compiler) (p q : Row) (condition : String) : List Row → Prop
  | fixed : k.isLiteral p = true → p.truth = .ok .always → Route k p q condition (k.emit [q])
  | vacuous : k.isLiteral p = true → p.truth = .ok .never → Route k p q condition []
  | direct {name : String} {value : Bool} : k.IsDirect p q → p.truth = .ok (.literal name value) →
      Route k p q condition (zeroConsequent name value q.terms (bigM [p, q] k.others))
  | conditional {strict : Row} : ¬k.IsDirect p q → k.strictForm? p = some strict →
      (∀ half ∈ k.enforced q, half.strict = false) →
      Route k p q condition (conditionalRows strict (k.enforced q) (bigM [strict, q] k.others) condition)

end Compiler

end Defs

/-! ## Margins -/

section Margins

namespace Row

theorem holds_iff_margin_nonneg (hweak : r.strict = false) (hne : r.cmp ≠ .eq) : r.Holds z ↔ 0 ≤ r.margin z := by
  unfold Holds margin
  unfold strict at hweak
  cases hcmp : r.cmp <;> rw [hcmp] at hweak hne <;>
    simp only [Comparator.strict, Comparator.Holds, Comparator.slackSign, reduceCtorEq, ne_eq, not_true_eq_false]
      at hweak hne ⊢
  · constructor <;> intro h <;> linarith
  · constructor <;> intro h <;> linarith

theorem holds_iff_margin_pos (hstrict : r.strict = true) : r.Holds z ↔ 0 < r.margin z := by
  unfold Holds margin
  unfold strict at hstrict
  cases hcmp : r.cmp <;> rw [hcmp] at hstrict <;>
    simp only [Comparator.strict, Comparator.Holds, Comparator.slackSign, reduceCtorEq] at hstrict ⊢
  · constructor <;> intro h <;> linarith
  · constructor <;> intro h <;> linarith

theorem Within.abs_margin_le (h : r.Within m z) : |r.margin z| ≤ m := by
  have hsign : |r.cmp.slackSign| = 1 := by
    cases r.cmp <;> simp [Comparator.slackSign]
  rwa [margin, abs_mul, hsign, one_mul]

theorem slackSign_of_strict (h : r.strict = true) : r.cmp.slackSign = if r.cmp = .gt then 1 else -1 := by
  unfold strict at h
  cases hcmp : r.cmp <;> rw [hcmp] at h <;> simp_all [Comparator.strict, Comparator.slackSign]

theorem slackSign_of_weak (hweak : r.strict = false) (hne : r.cmp ≠ .eq) :
    r.cmp.slackSign = if r.cmp = .ge then 1 else -1 := by
  unfold strict at hweak
  cases hcmp : r.cmp <;> rw [hcmp] at hweak hne <;> simp_all [Comparator.strict, Comparator.slackSign]

end Row

end Margins

/-! ## Rows with a condition -/

section Conditional

namespace Compiler

variable (hstrict : a.strict = true) (ha : condition ∉ a.names)
  (hhalves : ∀ half ∈ halves, half.strict = false ∧ half.cmp ≠ .eq ∧ condition ∉ half.names)
include hstrict ha hhalves

/-- The rows of an implication bound the margins of its operands. -/
theorem holds_conditionalRows_iff : (∀ row ∈ conditionalRows a halves m condition, row.Holds z) ↔
    (∀ half ∈ halves, 0 ≤ half.margin z + m * z condition) ∧ a.margin z ≤ m * (1 - z condition) := by
  have hscale : ∀ {terms : Terms} (q : Rat), condition ∉ terms.names → condition ∉ (terms.scale q).names :=
    fun q h => by rwa [Terms.names_scale]
  unfold conditionalRows
  dsimp only
  rw [List.forall_mem_append, List.forall_mem_map, List.forall_mem_singleton]
  refine and_congr (forall₂_congr fun half hhalf => ?_) ?_
  · obtain ⟨hweak, hne, hnot⟩ := hhalves half hhalf
    rw [Row.holds_of, Terms.eval_put_of_not_mem (hscale _ hnot), Terms.eval_scale, Row.margin,
      Row.slackSign_of_weak hweak hne, Comparator.Holds]
    constructor <;> intro h <;> linarith
  · rw [Row.holds_of, Terms.eval_put_of_not_mem (hscale _ ha), Terms.eval_scale, Row.margin,
      Row.slackSign_of_strict hstrict, Comparator.Holds]
    constructor <;> intro h <;> linarith

/-- A condition that satisfies the rows is 0 where the antecedent holds, and then the halves hold. -/
theorem halves_of_conditionalRows (hbit : IsBit (z condition))
    (hall : ∀ row ∈ conditionalRows a halves m condition, row.Holds z) (hholds : a.Holds z) :
    ∀ half ∈ halves, half.Holds z := by
  obtain ⟨henforce, hrefute⟩ := (holds_conditionalRows_iff hstrict ha hhalves).mp hall
  have hpos := (Row.holds_iff_margin_pos hstrict).mp hholds
  have hzero : z condition = 0 := by
    refine hbit.resolve_right fun hone => ?_
    rw [hone, sub_self, mul_zero] at hrefute
    exact absurd hrefute (not_le.mpr hpos)
  intro half hhalf
  have hmargin := henforce half hhalf
  rw [hzero, mul_zero, add_zero] at hmargin
  exact (Row.holds_iff_margin_nonneg (hhalves half hhalf).1 (hhalves half hhalf).2.1).mpr hmargin

/-- The condition that is 0 exactly where the antecedent holds satisfies the rows when the constant outweighs
the operands. -/
theorem conditionalRows_of_halves (hwithin : ∀ row ∈ a :: halves, row.Within m z)
    (himp : a.Holds z → ∀ half ∈ halves, half.Holds z) (hz : z condition = if a.Holds z then 0 else 1) :
    ∀ row ∈ conditionalRows a halves m condition, row.Holds z := by
  obtain ⟨hante, hcons⟩ := List.forall_mem_cons.mp hwithin
  rw [holds_conditionalRows_iff hstrict ha hhalves]
  by_cases hholds : a.Holds z
  · rw [hz, if_pos hholds]
    constructor
    · intro half hhalf
      obtain ⟨hweak, hne, -⟩ := hhalves half hhalf
      have hmargin := (Row.holds_iff_margin_nonneg hweak hne).mp (himp hholds half hhalf)
      linarith
    · have hle := (abs_le.mp hante.abs_margin_le).2
      linarith
  · rw [hz, if_neg hholds]
    constructor
    · intro half hhalf
      have hge := (abs_le.mp (hcons half hhalf).abs_margin_le).1
      linarith
    · have hmargin := not_lt.mp fun hpos => hholds ((Row.holds_iff_margin_pos hstrict).mpr hpos)
      linarith

end Compiler

end Conditional

/-! ## Rows with a binary in place of a condition -/

section Direct

namespace Compiler

/-- The rows of a direct implication bound the form that it sets to zero. -/
theorem holds_zeroConsequent_iff (value : Bool) : (∀ row ∈ zeroConsequent name value terms m, row.Holds z) ↔
    |terms.eval z| ≤ m * if value then 1 - z name else z name := by
  have hrow : ∀ sign : Rat,
      (if value then
        Row.of ((terms.scale sign).put name ((terms.scale sign).coefficient name + m)) .le m none
      else Row.of ((terms.scale sign).put name ((terms.scale sign).coefficient name - m)) .le 0 none).Holds z ↔
        terms.eval z * sign ≤ m * if value then 1 - z name else z name := by
    intro sign
    cases value
    · simp only [Bool.false_eq_true, if_false]
      rw [Row.holds_of, Terms.eval_put, Terms.eval_scale, Comparator.Holds]
      constructor <;> intro h <;> linarith
    · simp only [if_true]
      rw [Row.holds_of, Terms.eval_put, Terms.eval_scale, Comparator.Holds]
      constructor <;> intro h <;> linarith
  unfold zeroConsequent
  dsimp only
  rw [List.forall_mem_map, List.forall_mem_cons, List.forall_mem_singleton, hrow, hrow, abs_le, mul_one, mul_neg_one]
  constructor
  · rintro ⟨hle, hge⟩
    exact ⟨neg_le.mp hge, hle⟩
  · rintro ⟨hge, hle⟩
    exact ⟨hle, neg_le.mpr hge⟩

/-- The rows leave no room where the binary has the value of the literal. -/
theorem room_of_eq {value : Bool} (h : z name = bit value) : (if value then 1 - z name else z name) = 0 := by
  rw [h]
  cases value <;> simp [bit]

theorem room_of_ne {value : Bool} (hbit : IsBit (z name)) (h : z name ≠ bit value) :
    (if value then 1 - z name else z name) = 1 := by
  rcases hbit with h' | h' <;> cases value <;> simp_all [bit]

end Compiler

end Direct

/-! ## Rewritten operands -/

section Rewritten

namespace Row

/-- Over integer values a tightened row says what the row says. -/
theorem holds_tighten (hz : ∀ name ∈ integral, z name ∈ integers) :
    (r.tighten integral).Holds z ↔ r.Holds z := by
  unfold tighten
  split
  · rename_i htight
    obtain ⟨hstrict, hintegral⟩ := Bool.and_eq_true_iff.mp htight
    have heval := eval_mem_integers hintegral hz
    obtain ⟨terms, cmp, rhs, label⟩ := r
    cases cmp with
    | lt => exact (holds_of _ _ _ _ z).trans (le_ceil_sub_one_iff heval)
    | gt => exact (holds_of _ _ _ _ z).trans (floor_add_one_le_iff heval)
    | le | eq | ge => cases hstrict
  · exact Iff.rfl

/-- Over integer values a loosened row says what the row says. -/
theorem holds_loosen? (hz : ∀ name ∈ integral, z name ∈ integers) (h : r.loosen? integral = some strict) :
    strict.Holds z ↔ r.Holds z := by
  unfold loosen? at h
  split at h
  · rename_i hintegral
    have heval := eval_mem_integers hintegral hz
    obtain ⟨terms, cmp, rhs, label⟩ := r
    cases cmp with
    | ge =>
      obtain rfl := Option.some.inj h
      refine (holds_of _ _ _ _ z).trans ?_
      rw [Comparator.Holds, ← not_le, le_ceil_sub_one_iff heval, not_lt]
      exact Iff.rfl
    | le =>
      obtain rfl := Option.some.inj h
      refine (holds_of _ _ _ _ z).trans ?_
      rw [Comparator.Holds, ← not_le, floor_add_one_le_iff heval, not_lt]
      exact Iff.rfl
    | lt | eq | gt => cases h
  · cases h

end Row

namespace Compiler

theorem holds_enforced (hz : ∀ name ∈ k.integral, z name ∈ integers) :
    (∀ half ∈ k.enforced q, half.Holds z) ↔ q.Holds z := by
  rw [enforced, List.forall_mem_map, ← Row.holds_halves]
  exact forall₂_congr fun half _ => Row.holds_tighten hz

theorem mem_names_of_enforced {half : Row} (h : half ∈ k.enforced q) (hname : name ∈ half.names) :
    name ∈ q.names := by
  obtain ⟨r, hr, rfl⟩ := List.mem_map.mp h
  exact Row.mem_names_of_half hr (Row.mem_names_of_tighten hname)

theorem cmp_enforced {half : Row} (h : half ∈ k.enforced q) : half.cmp ≠ .eq := by
  obtain ⟨r, hr, rfl⟩ := List.mem_map.mp h
  exact Row.cmp_tighten (Row.cmp_half hr)

/-- An equation is as far off as its enforced halves. -/
theorem within_of_enforced (hcmp : q.cmp = .eq) (h : ∀ half ∈ k.enforced q, half.Within m z) : q.Within m z := by
  have hmem : q.withCmp .le ∈ k.enforced q := by
    refine List.mem_map.mpr ⟨q.withCmp .le, ?_, rfl⟩
    rw [Row.halves, hcmp]
    exact List.mem_cons_self
  have hhalf := h _ hmem
  rwa [Row.Within, Row.withCmp, Row.of, Terms.eval_nonzero] at hhalf

theorem strict_strictLiteral (name : String) (value : Bool) : (strictLiteral name value).strict = true := by
  cases value <;> rfl

theorem mem_names_of_strictLiteral {value : Bool} {other : String} (h : other ∈ (strictLiteral name value).names) :
    other = name := by
  have hmem : other ∈ Keyed.names [(name, (1 : Rat))] := by
    unfold strictLiteral at h
    split at h
    · exact (Terms.names_nonzero_sublist _).subset h
    · exact (Terms.names_nonzero_sublist _).subset h
  exact List.mem_singleton.mp hmem

theorem holds_strictLiteral {value : Bool} (hbit : IsBit (z name)) :
    (strictLiteral name value).Holds z ↔ z name = bit value := by
  have heval : Terms.eval [(name, 1)] z = z name := by
    rw [Terms.eval_cons, one_mul]
    exact add_zero _
  unfold strictLiteral
  cases value
  · rw [if_neg Bool.false_ne_true, Row.holds_of, heval, Comparator.Holds]
    rcases hbit with h | h <;> rw [h] <;> norm_num [bit]
  · rw [if_pos rfl, Row.holds_of, heval, Comparator.Holds]
    rcases hbit with h | h <;> rw [h] <;> norm_num [bit]

/-- The strict form of an antecedent is strict, says what the antecedent says and has no names of its own. -/
theorem strictForm?_spec (h : k.strictForm? p = some strict) (hbinary : ∀ name ∈ k.binary, IsBit (z name))
    (hintegral : ∀ name ∈ k.integral, z name ∈ integers) :
    strict.strict = true ∧ (strict.Holds z ↔ p.Holds z) ∧ ∀ name ∈ strict.names, name ∈ p.names := by
  unfold strictForm? at h
  split at h
  · rename_i hliteral
    split at h
    · rename_i name value htruth
      obtain rfl := Option.some.inj h
      obtain ⟨hmeans, hbits, hname⟩ := truth_spec hliteral hbinary htruth
      refine ⟨strict_strictLiteral name value, ?_, fun other hother => ?_⟩
      · rw [hmeans, holds_strictLiteral (hbits name value rfl)]
        rfl
      · rw [mem_names_of_strictLiteral hother]
        exact hname name value rfl
    · cases h
  · split at h
    · rename_i hstrict
      obtain rfl := Option.some.inj h
      exact ⟨hstrict, Iff.rfl, fun _ => id⟩
    · obtain ⟨hstrict, -, hnames⟩ := Row.loosen?_spec (z := z) h
      exact ⟨hstrict, Row.holds_loosen? hintegral h, hnames⟩

end Compiler

end Rewritten

/-! ## Ways to compile an implication -/

section Routes

namespace Compiler

/-- A computation that returns the rows of a conditional has taken its condition. -/
theorem conditional_run {c : Constraint} {report : String}
    (h : (k.conditional a q c report index).run taken = (.ok rows, taken')) :
    rows = conditionalRows a (k.enforced q) (bigM [a, q] k.others) (conditionName index) ∧
      ∀ half ∈ k.enforced q, half.strict = false := by
  unfold conditional at h
  dsimp only at h
  split at h
  · cases h
  · rename_i hany
    obtain ⟨name, u, htake, hrest⟩ := ok_of_run_bind h
    obtain rfl : conditionName index = name := Except.ok.inj (Prod.mk.inj htake).1
    refine ⟨(Except.ok.inj (Prod.mk.inj hrest).1).symm, fun half hhalf => ?_⟩
    by_contra hs
    exact hany (List.any_eq_true.mpr ⟨half, hhalf, by simpa using hs⟩)

/-- The rows of an implication come about in one of the ways. -/
theorem route_of_implication (h : (k.implication p q index).run taken = (.ok rows, taken')) :
    k.Route p q (conditionName index) rows := by
  obtain ⟨report, u, -, h⟩ := ok_of_run_bind h
  dsimp only at h
  by_cases hliteral : k.isLiteral p = true
  · rw [if_pos hliteral] at h
    obtain ⟨truth, u', htruth, h⟩ := ok_of_run_bind h
    have htruth : p.truth = .ok truth := (Prod.mk.inj htruth).1
    cases truth with
    | always => exact Except.ok.inj (Prod.mk.inj h).1 ▸ .fixed hliteral htruth
    | never => exact Except.ok.inj (Prod.mk.inj h).1 ▸ .vacuous hliteral htruth
    | literal name value =>
      dsimp only at h
      split at h
      · rename_i hzero
        exact Except.ok.inj (Prod.mk.inj h).1 ▸ .direct ⟨hliteral, hzero⟩ htruth
      · rename_i hzero
        have hform : k.strictForm? p = some (strictLiteral name value) := by
          rw [strictForm?, if_pos hliteral, htruth]
        obtain ⟨rfl, hweak⟩ := conditional_run h
        exact .conditional (fun hdirect => hzero hdirect.2) hform hweak
  · rw [if_neg hliteral] at h
    have hdirect : ¬k.IsDirect p q := fun hdirect => hliteral hdirect.1
    split at h
    · rename_i hstrict
      obtain ⟨rfl, hweak⟩ := conditional_run h
      refine .conditional hdirect ?_ hweak
      rw [strictForm?, if_neg hliteral, if_pos hstrict]
    · rename_i hstrict
      split at h
      · rename_i strict hloose
        obtain ⟨rfl, hweak⟩ := conditional_run h
        refine .conditional hdirect ?_ hweak
        rw [strictForm?, if_neg hliteral, if_neg hstrict, hloose]
      · cases h

end Compiler

end Routes

/-! ## What the rows say -/

section Exact

namespace Compiler

section Assigned

variable (hbinary : ∀ name ∈ k.binary, IsBit (z name)) (hintegral : ∀ name ∈ k.integral, z name ∈ integers)
  (hp : condition ∉ p.names) (hq : condition ∉ q.names)
include hbinary hintegral hp hq

/-- Rows that hold, with a condition that is 0 or 1, imply the consequent by the antecedent. -/
theorem Route.implies (h : k.Route p q condition rows) (hbit : IsBit (z condition))
    (hall : ∀ row ∈ rows, row.Holds z) (hholds : p.Holds z) : q.Holds z := by
  cases h with
  | fixed _ _ => exact (Row.holds_tighten hintegral).mp (hall _ (List.mem_singleton_self _))
  | vacuous hliteral htruth => exact ((truth_spec hliteral hbinary htruth).1.mp hholds).elim
  | direct hdirect htruth =>
    rename_i name value
    have hz : z name = bit value := (truth_spec hdirect.1 hbinary htruth).1.mp hholds
    have hbound := (holds_zeroConsequent_iff value).mp hall
    rw [room_of_eq hz, mul_zero] at hbound
    rw [Row.Holds, hdirect.2.1, hdirect.2.2]
    exact abs_nonpos_iff.mp hbound
  | conditional _ hstrict hweak =>
    obtain ⟨hs, hmeans, hnames⟩ := strictForm?_spec hstrict hbinary hintegral
    refine (holds_enforced hintegral).mp (halves_of_conditionalRows hs (fun hmem => hp (hnames _ hmem)) ?_ hbit
      hall (hmeans.mpr hholds))
    intro half hhalf
    exact ⟨hweak half hhalf, cmp_enforced hhalf, fun hmem => hq (mem_names_of_enforced hhalf hmem)⟩

/-- Where the implication holds and the constant outweighs the operands, the rows hold with the condition that is
0 exactly where the antecedent holds. -/
theorem Route.satisfied (h : k.Route p q condition rows) (himp : p.Holds z → q.Holds z) (hout : k.Outweighs p q z)
    (hz : z condition = if p.Holds z then 0 else 1) : ∀ row ∈ rows, row.Holds z := by
  cases h with
  | fixed hliteral htruth =>
    refine List.forall_mem_singleton.mpr ((Row.holds_tighten hintegral).mpr (himp ?_))
    exact (truth_spec hliteral hbinary htruth).1.mpr trivial
  | vacuous _ _ => exact List.forall_mem_nil _
  | direct hdirect htruth =>
    rename_i name value
    obtain ⟨hmeans, hbits, -⟩ := truth_spec hdirect.1 hbinary htruth
    have hstrict := hout (strictLiteral name value) (by rw [strictForm?, if_pos hdirect.1, htruth])
    rw [if_pos hdirect] at hstrict
    rw [holds_zeroConsequent_iff]
    by_cases hholds : p.Holds z
    · have heval : q.terms.eval z = 0 := by
        have hq := himp hholds
        rwa [Row.Holds, hdirect.2.1, hdirect.2.2] at hq
      rw [heval, room_of_eq (hmeans.mp hholds), abs_zero, mul_zero]
    · rw [room_of_ne (hbits name value rfl) fun heq => hholds (hmeans.mpr heq), mul_one]
      have hwithin := within_of_enforced hdirect.2.1 hstrict
      rwa [Row.Within, hdirect.2.2, sub_zero] at hwithin
  | conditional hdirect hstrict hweak =>
    obtain ⟨hs, hmeans, hnames⟩ := strictForm?_spec hstrict hbinary hintegral
    have hwithin := hout _ hstrict
    rw [if_neg hdirect] at hwithin
    refine conditionalRows_of_halves hs (fun hmem => hp (hnames _ hmem)) ?_ hwithin ?_ ?_
    · intro half hhalf
      exact ⟨hweak half hhalf, cmp_enforced hhalf, fun hmem => hq (mem_names_of_enforced hhalf hmem)⟩
    · exact fun hholds => (holds_enforced hintegral).mpr (himp (hmeans.mp hholds))
    · rw [hz]
      exact if_congr hmeans.symm rfl rfl

end Assigned

end Compiler

/-! ### With another value of the condition -/

theorem forall_update {P : Rat → Prop} {names : List String} (h : ∀ name ∈ names, P (z name)) {y : Rat} (hy : P y)
    (condition : String) : ∀ name ∈ names, P (Function.update z condition y name) := by
  intro name hname
  by_cases heq : name = condition
  · rwa [heq, Function.update_self]
  · rw [Function.update_of_ne heq]
    exact h name hname

theorem IsBit.mem_integers {y : Rat} (h : IsBit y) : y ∈ integers := by
  rcases h with rfl | rfl
  · exact zero_mem integers
  · exact one_mem integers

namespace Row

theorem eval_update (h : condition ∉ r.names) (y : Rat) :
    r.terms.eval (Function.update z condition y) = r.terms.eval z := by
  refine Terms.eval_congr fun name hname => Function.update_of_ne ?_ y z
  rintro rfl
  exact h hname

theorem holds_update (h : condition ∉ r.names) (y : Rat) :
    r.Holds (Function.update z condition y) ↔ r.Holds z := by
  rw [Holds, Holds, eval_update h]

theorem within_update (h : condition ∉ r.names) (y : Rat) :
    r.Within m (Function.update z condition y) ↔ r.Within m z := by
  rw [Within, Within, eval_update h]

end Row

namespace Compiler

section Closed

variable (hbinary : ∀ name ∈ k.binary, IsBit (z name)) (hintegral : ∀ name ∈ k.integral, z name ∈ integers)
include hbinary hintegral

theorem Outweighs.update (h : k.Outweighs p q z) (hp : condition ∉ p.names) (hq : condition ∉ q.names) (y : Rat) :
    k.Outweighs p q (Function.update z condition y) := by
  have henforced : ∀ half ∈ k.enforced q, condition ∉ half.names :=
    fun half hhalf hmem => hq (mem_names_of_enforced hhalf hmem)
  intro strict hstrict
  obtain ⟨-, -, hnames⟩ := strictForm?_spec hstrict hbinary hintegral
  have hall := h strict hstrict
  split
  · rename_i hdirect
    rw [if_pos hdirect] at hall
    exact fun half hhalf => (Row.within_update (henforced half hhalf) y).mpr (hall half hhalf)
  · rename_i hdirect
    rw [if_neg hdirect] at hall
    obtain ⟨hante, hcons⟩ := List.forall_mem_cons.mp hall
    refine List.forall_mem_cons.mpr ⟨(Row.within_update (fun hmem => hp (hnames _ hmem)) y).mpr hante, ?_⟩
    exact fun half hhalf => (Row.within_update (henforced half hhalf) y).mpr (hcons half hhalf)

/-- Where the operands do not name a condition, some value of it satisfies the rows of an implication only if the
implication holds, and some value does if it holds and the constant outweighs the operands.  Some values of two
conditions satisfy the rows of an equivalence only if it holds. -/
theorem implication_exact (p q : Row) (index : Int) (taken : List String) :
    (∀ rows taken', (k.implication p q index).run taken = (.ok rows, taken') →
      (∀ row ∈ [p, q], conditionName index ∉ row.names) →
      ((∃ y, IsBit y ∧ ∀ row ∈ rows, row.Holds (Function.update z (conditionName index) y)) →
        p.Holds z → q.Holds z) ∧
      ((p.Holds z → q.Holds z) → k.Outweighs p q z →
        ∃ y, IsBit y ∧ ∀ row ∈ rows, row.Holds (Function.update z (conditionName index) y))) ∧
    ∀ rows taken', (k.equivalence p q index).run taken = (.ok rows, taken') →
      (∀ row ∈ [p, q], conditionName index ∉ row.names ∧ conditionName (index + 1) ∉ row.names) →
      (∃ y y', IsBit y ∧ IsBit y' ∧ ∀ row ∈ rows, row.Holds
        (Function.update (Function.update z (conditionName index) y) (conditionName (index + 1)) y')) →
      (p.Holds z → q.Holds z) ∧ (q.Holds z → p.Holds z) := by
  constructor
  · intro rows taken' hrun hfree
    have hroute := route_of_implication hrun
    obtain ⟨hp, hq⟩ := List.forall_mem_cons.mp hfree
    rw [List.forall_mem_singleton] at hq
    constructor
    · rintro ⟨y, hy, hall⟩ hholds
      have hbits := forall_update hbinary hy (conditionName index)
      have hints := forall_update hintegral hy.mem_integers (conditionName index)
      rw [← Row.holds_update hp y] at hholds
      rw [← Row.holds_update hq y]
      exact hroute.implies hbits hints hp hq (by rwa [Function.update_self]) hall hholds
    · intro himp hout
      have hy : IsBit (if p.Holds z then 0 else 1) := by
        split
        · exact Or.inl rfl
        · exact Or.inr rfl
      have hbits := forall_update hbinary hy (conditionName index)
      have hints := forall_update hintegral hy.mem_integers (conditionName index)
      refine ⟨_, hy, hroute.satisfied hbits hints hp hq ?_ (hout.update hbinary hintegral hp hq _) ?_⟩
      · rwa [Row.holds_update hp, Row.holds_update hq]
      · rw [Function.update_self]
        exact if_congr (Row.holds_update hp _).symm rfl rfl
  · rintro rows taken' hrun hfree ⟨y, y', hy, hy', hall⟩
    obtain ⟨forth, u, hforth, hrun⟩ := ok_of_run_bind hrun
    obtain ⟨back, u', hback, hrun⟩ := ok_of_run_bind hrun
    obtain rfl : forth ++ back = rows := Except.ok.inj (Prod.mk.inj hrun).1
    obtain ⟨hallforth, hallback⟩ := List.forall_mem_append.mp hall
    obtain ⟨hp, hq⟩ := List.forall_mem_cons.mp hfree
    rw [List.forall_mem_singleton] at hq
    set z' := Function.update (Function.update z (conditionName index) y) (conditionName (index + 1)) y' with hz'
    have hbits : ∀ name ∈ k.binary, IsBit (z' name) := forall_update (forall_update hbinary hy _) hy' _
    have hints : ∀ name ∈ k.integral, z' name ∈ integers :=
      forall_update (forall_update hintegral hy.mem_integers _) hy'.mem_integers _
    have hcondition : ∀ name ∈ [conditionName index], IsBit (z' name) :=
      forall_update (List.forall_mem_singleton.mpr (by rwa [Function.update_self])) hy' _
    have hnext : IsBit (z' (conditionName (index + 1))) := by rwa [hz', Function.update_self]
    have hpz : p.Holds z' ↔ p.Holds z := (Row.holds_update hp.2 _).trans (Row.holds_update hp.1 _)
    have hqz : q.Holds z' ↔ q.Holds z := (Row.holds_update hq.2 _).trans (Row.holds_update hq.1 _)
    rw [← hpz, ← hqz]
    exact ⟨(route_of_implication hforth).implies hbits hints hp.1 hq.1
        (hcondition _ (List.mem_singleton_self _)) hallforth,
      (route_of_implication hback).implies hbits hints hq.2 hp.2 hnext hallback⟩

end Closed

/-- The rows of a computation from the start. -/
def rows? (x : Compiling (List Row)) : Option (List Row) := (x.run []).1.toOption

theorem exists_run_of_rows? {x : Compiling (List Row)} {rows : List Row} (h : rows? x = some rows) :
    ∃ t, x.run [] = (.ok rows, t) := by
  unfold rows? at h
  rcases hrun : x.run [] with ⟨_ | out, t⟩
  · rw [hrun] at h
    cases h
  · rw [hrun] at h
    obtain rfl := Option.some.inj h
    exact ⟨t, rfl⟩

/-- Integers `x` and `y` among rows that bound `x` by 10. -/
def sampleCompiler : Compiler := ⟨[⟨[("x", 1)], .le, 10, none⟩], [], ["x", "y"]⟩

def sampleIf : Row := ⟨[("x", 1)], .ge, 3, none⟩

def sampleThen : Row := ⟨[("y", 1)], .le, 3, none⟩

/-- The point `x = 1`, `y = 5`. -/
def samplePoint : Assignment := fun name => if name = "x" then 1 else 5

theorem samplePoint_mem_integers (name : String) : samplePoint name ∈ integers := by
  unfold samplePoint
  split
  · exact one_mem integers
  · exact ⟨5, rfl⟩

/-- At `x = 1` and `y = 5` neither side of `x >= 3 → y <= 3` holds. -/
theorem implication_exact_sample :
    (∃ rows t, (sampleCompiler.implication sampleIf sampleThen 0).run [] = (.ok rows, t) ∧ rows.length = 2 ∧
      ∃ y, IsBit y ∧ ∀ row ∈ rows, row.Holds (Function.update samplePoint "_y0" y)) ∧
    ∃ rows t, (sampleCompiler.equivalence sampleIf sampleThen 0).run [] = (.ok rows, t) ∧ rows.length = 4 ∧
      (sampleIf.Holds samplePoint → sampleThen.Holds samplePoint) ∧
      (sampleThen.Holds samplePoint → sampleIf.Holds samplePoint) := by
  have hintegral : ∀ name ∈ sampleCompiler.integral, samplePoint name ∈ integers := by
    intro name _
    unfold samplePoint
    split
    · exact one_mem integers
    · exact ⟨5, rfl⟩
  obtain ⟨himp, hiff⟩ := implication_exact (k := sampleCompiler) (List.forall_mem_nil _) hintegral
    sampleIf sampleThen 0 []
  constructor
  · have hrows : rows? (sampleCompiler.implication sampleIf sampleThen 0) =
        some [⟨[("y", 1), ("_y0", -10)], .le, 3, none⟩, ⟨[("x", 1), ("_y0", 10)], .le, 12, none⟩] := by
      decide +kernel
    have hstrict : sampleCompiler.strictForm? sampleIf = some ⟨[("x", 1)], .gt, 2, none⟩ := by
      decide +kernel
    have hout : sampleCompiler.Outweighs sampleIf sampleThen samplePoint := by
      intro strict hs
      obtain rfl := Option.some.inj (hstrict.symm.trans hs)
      decide +kernel
    obtain ⟨t, hrun⟩ := exists_run_of_rows? hrows
    exact ⟨_, t, hrun, rfl, (himp _ t hrun (by decide +kernel)).2 (by decide +kernel) hout⟩
  · have hrows : rows? (sampleCompiler.equivalence sampleIf sampleThen 0) =
        some [⟨[("y", 1), ("_y0", -10)], .le, 3, none⟩, ⟨[("x", 1), ("_y0", 10)], .le, 12, none⟩,
          ⟨[("x", -1), ("_y1", -10)], .le, -3, none⟩, ⟨[("y", -1), ("_y1", 10)], .le, 6, none⟩] := by
      decide +kernel
    obtain ⟨t, hrun⟩ := exists_run_of_rows? hrows
    exact ⟨_, t, hrun, rfl, hiff _ t hrun (by decide +kernel)
      ⟨1, 1, Or.inr rfl, Or.inr rfl, by decide +kernel⟩⟩

/-- A compiler for one binary, which has the name of a condition. -/
def capturingCompiler : Compiler := ⟨[], ["_y0"], []⟩

def capturedIf : Row := ⟨[("_y0", 1)], .gt, 0, none⟩

def capturedThen : Row := ⟨[("x", 1)], .ge, 1, none⟩

/-- The point `x = 0`, `_y0 = 1`. -/
def capturedPoint : Assignment := fun name => if name = "_y0" then 1 else 0

/-- An operand over the condition itself is captured: the rows of `_y0 > 0 → x >= 1` hold at `x = 0` and
`_y0 = 1`, where the implication does not. -/
theorem implication_captured :
    ∃ rows t, (capturingCompiler.implication capturedIf capturedThen 0).run [] = (.ok rows, t) ∧
      (∀ name ∈ capturingCompiler.binary, IsBit (capturedPoint name)) ∧
      (∀ name ∈ capturingCompiler.integral, capturedPoint name ∈ integers) ∧
      (∃ y, IsBit y ∧ ∀ row ∈ rows, row.Holds (Function.update capturedPoint (conditionName 0) y)) ∧
      ¬(capturedIf.Holds capturedPoint → capturedThen.Holds capturedPoint) := by
  have hrows : rows? (capturingCompiler.implication capturedIf capturedThen 0) =
      some [⟨[("x", -1), ("_y0", -10000000000)], .le, -1, none⟩,
        ⟨[("_y0", 10000000000)], .le, 10000000000, none⟩] := by
    decide +kernel
  obtain ⟨t, hrun⟩ := exists_run_of_rows? hrows
  refine ⟨_, t, hrun, ?_, List.forall_mem_nil _, ⟨1, Or.inr rfl, by decide +kernel⟩, by decide +kernel⟩
  exact List.forall_mem_singleton.mpr (Or.inr rfl)

end Compiler

end Exact

end ExactLP
