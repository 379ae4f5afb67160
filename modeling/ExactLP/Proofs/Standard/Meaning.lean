import ExactLP.Proofs.Standard.Compile
import ExactLP.Proofs.Standard.Integral
import Mathlib.Tactic.Linarith

/-!
# Proofs.Standard.Meaning — what compiled rows say

Where every binary and every condition is 0 or 1, the rows of a compiled form, strict comparators read as
inclusive, say at least what the form says.  Which value the constant has that outweighs an operand plays no
part in this.

* `Constraint.HoldsInclusive`: what a constraint says when the rows that must hold are read as inclusive.
* `Entails`: what the rows of a computation say; `entails_compile`, `entails_compileAll`: the logical forms.
* `StandardForm.MadeOf.holdsInclusive`: the standard form of a list of constraints.
-/

namespace ExactLP

variable {r a b : Row} {rows halves : List Row} {terms : Terms} {integral : List String} {k : Compiler}
  {c : Constraint} {constraints : List Constraint} {index : Int} {z v : Assignment} {name condition : String}
  {m q : Rat}

/-- The number is 0 or 1. -/
def IsBit (q : Rat) : Prop := q = 0 ∨ q = 1

/-! ## Constraints read as inclusive -/

namespace Constraint

/-- What a constraint says when the rows that must hold are read as inclusive; antecedents are read as they
are. -/
def HoldsInclusive (c : Constraint) (v : Assignment) : Prop :=
  match c with
  | plain row => row.HoldsInclusive v
  | implies p q => p.Holds v → q.HoldsInclusive v
  | equivalent p q => (p.Holds v → q.HoldsInclusive v) ∧ (q.Holds v → p.HoldsInclusive v)
  | joined operator a b => operator.Holds (a.HoldsInclusive v) (b.HoldsInclusive v)

/-- The constraint is no junction that negates a row. -/
def isPositive : Constraint → Bool
  | joined .xor _ _ | joined .nor _ _ => false
  | _ => true

/-- No row of the constraint has a name that is reserved for conditions. -/
def Unreserved (c : Constraint) : Prop := ∀ row ∈ c.operands, ∀ name ∈ row.names, ¬Reserved name

end Constraint

/-! ## Single rows -/

section Rows

/-- What a write of a new name adds. -/
theorem Terms.eval_put_of_not_mem (h : name ∉ terms.names) (q : Rat) (z : Assignment) :
    Terms.eval (terms.put name q) z = terms.eval z + q * z name := by
  rw [eval_put, coefficient_of_not_mem h, sub_zero]

theorem Comparator.holds_add_right (cmp : Comparator) (p q shift : Rat) :
    cmp.Holds (p + shift) (q + shift) ↔ cmp.Holds p q := by
  cases cmp <;> simp only [Holds] <;> constructor <;> intro h <;> linarith

namespace Row

theorem HoldsInclusive.of_holds (h : r.Holds z) : r.HoldsInclusive z := by
  unfold Holds at h
  unfold HoldsInclusive
  cases hcmp : r.cmp <;> rw [hcmp] at h <;> simp only [Comparator.Holds, Comparator.inclusive] at h ⊢
  · exact h.le
  · exact h
  · exact h
  · exact h
  · exact h.le

theorem holdsInclusive_halves (r : Row) (z : Assignment) :
    (∀ half ∈ r.halves, half.HoldsInclusive z) ↔ r.HoldsInclusive z := by
  unfold halves
  split
  · rename_i h
    rw [List.forall_mem_cons, List.forall_mem_singleton, withCmp, withCmp, holdsInclusive_of, holdsInclusive_of,
      HoldsInclusive, h]
    exact ⟨fun p => le_antisymm p.1 p.2, fun p => ⟨p.le, p.ge⟩⟩
  · exact List.forall_mem_singleton

theorem mem_names_of_half {half : Row} (h : half ∈ r.halves) (hname : name ∈ half.names) : name ∈ r.names := by
  unfold halves at h
  split at h
  · rcases List.mem_pair.mp h with rfl | rfl
    · exact (Terms.names_nonzero_sublist _).subset hname
    · exact (Terms.names_nonzero_sublist _).subset hname
  · exact List.mem_singleton.mp h ▸ hname

theorem cmp_half {half : Row} (h : half ∈ r.halves) : half.cmp ≠ .eq := by
  unfold halves at h
  split at h
  · rcases List.mem_pair.mp h with rfl | rfl
    · exact Comparator.noConfusion
    · exact Comparator.noConfusion
  · rename_i hne
    exact List.mem_singleton.mp h ▸ hne

theorem mem_names_of_tighten (h : name ∈ (r.tighten integral).names) : name ∈ r.names := by
  unfold tighten at h
  split at h
  · split at h
    · exact (Terms.names_nonzero_sublist _).subset h
    · exact (Terms.names_nonzero_sublist _).subset h
  · exact h

theorem cmp_tighten (h : r.cmp ≠ .eq) : (r.tighten integral).cmp ≠ .eq := by
  unfold tighten
  split
  · split
    · exact Comparator.noConfusion
    · exact Comparator.noConfusion
  · exact h

theorem holdsInclusive_withCondition (h : condition ∉ r.names) (q shift : Rat) :
    (r.withCondition condition q shift).HoldsInclusive z ↔
      r.cmp.inclusive.Holds (r.terms.eval z + q * z condition) (r.rhs + shift) := by
  rw [withCondition, holdsInclusive_of, Terms.eval_put_of_not_mem h]

end Row

end Rows

/-! ## Rows over one binary -/

section Literals

/-- What a truth value says. -/
def Truth.Says (t : Truth) (z : Assignment) : Prop :=
  match t with
  | always => True
  | never => False
  | literal name value => z name = bit value

/-- The variable of a truth value is 0 or 1. -/
def Truth.Bits (t : Truth) (z : Assignment) : Prop :=
  ∀ name value, t = literal name value → IsBit (z name)

theorem holdsInclusive_literalRow (name : String) (value : Bool) :
    (literalRow name value).HoldsInclusive z ↔ z name = bit value := by
  rw [literalRow, Row.holdsInclusive_of, Terms.eval_cons, one_mul]
  exact iff_of_eq (congrArg (· = _) (add_zero _))

/-- A row over one binary says what its truth says. -/
theorem says_truthOf (h : IsBit (z name)) (q : Rat) (cmp : Comparator) (rhs : Rat) :
    (truthOf name q cmp rhs).Says z ↔ cmp.Holds (q * z name) rhs := by
  unfold truthOf
  rcases h with h0 | h1
  · rw [h0, mul_zero]
    split_ifs <;> simp_all [Truth.Says, bit]
  · rw [h1, mul_one]
    split_ifs <;> simp_all [Truth.Says, bit]

variable {t : Truth}

/-- The one name of a literal is that of a binary. -/
theorem truth_spec (hk : k.isLiteral r = true) (hbinary : ∀ name ∈ k.binary, IsBit (z name))
    (h : r.truth = .ok t) :
    (r.Holds z ↔ t.Says z) ∧ t.Bits z ∧ ∀ name value, t = .literal name value → name ∈ r.names := by
  obtain ⟨terms, cmp, rhs, label⟩ := r
  unfold Row.truth at h
  split at h
  · rename_i x q hterms
    dsimp only at hterms
    subst hterms
    obtain rfl := Except.ok.inj h
    have hx : IsBit (z x) := hbinary x (List.contains_iff_mem.mp hk)
    have hname : ∀ name value, truthOf x q cmp rhs = .literal name value → name = x := by
      intro name value heq
      unfold truthOf at heq
      split_ifs at heq <;> cases heq <;> rfl
    refine ⟨?_, fun name value heq => hname name value heq ▸ hx,
      fun name value heq => hname name value heq ▸ List.mem_singleton_self x⟩
    rw [says_truthOf hx, Row.Holds, Terms.eval_cons]
    exact iff_of_eq (congrArg (cmp.Holds · rhs) (add_zero _))
  · cases h

/-- A junction of two literals by `or`. -/
theorem says_literalOr {x y : Truth} (hx : x.Bits z) (hy : y.Bits z)
    (h : Compiler.literalOr c x y = .ok rows) (hall : ∀ row ∈ rows, row.HoldsInclusive z) :
    x.Says z ∨ y.Says z := by
  unfold Compiler.literalOr at h
  split at h
  · exact Or.inl trivial
  · exact Or.inr trivial
  · exact absurd h (Compiler.refuse_ne_ok _ _ _)
  · obtain rfl := Except.ok.inj h
    exact Or.inr ((holdsInclusive_literalRow _ _).mp (hall _ (List.mem_singleton_self _)))
  · obtain rfl := Except.ok.inj h
    exact Or.inl ((holdsInclusive_literalRow _ _).mp (hall _ (List.mem_singleton_self _)))
  · rename_i x v y w
    have hbit := hx x v rfl
    have hbit' := hy y w rfl
    split at h
    · rename_i hxy
      subst hxy
      obtain rfl := Except.ok.inj h
      split at hall
      · exact Or.inl ((holdsInclusive_literalRow _ _).mp (hall _ (List.mem_singleton_self _)))
      · rename_i hne
        unfold Truth.Says
        rcases hbit with h0 | h1
        · cases v <;> cases w <;> simp_all [bit]
        · cases v <;> cases w <;> simp_all [bit]
    · rename_i hxy
      obtain rfl := Except.ok.inj h
      have hrow := (Row.holdsInclusive_of _ _ _ _ z).mp (hall _ (List.mem_singleton_self _))
      rw [Terms.eval_put_of_not_mem (by simpa [Keyed.names] using Ne.symm hxy), Terms.eval_cons] at hrow
      simp only [Comparator.inclusive, Comparator.Holds, Terms.eval, List.foldr_nil] at hrow
      unfold Truth.Says
      rcases hbit with h0 | h1 <;> rcases hbit' with h0' | h1' <;> cases v <;> cases w <;>
        simp_all [bit] <;> norm_num at hrow

end Literals

/-! ## Computations that take conditions -/

section Entailing

/-- The rows that come out say `P` where every condition that was taken is 0 or 1. -/
abbrev Entails (z : Assignment) (x : Compiling (List Row)) (P : Prop) : Prop :=
  Ensures x fun s rows t => (∀ name ∈ s, name ∈ t) ∧
    ((∀ name ∈ t, IsBit (z name)) → (∀ row ∈ rows, row.HoldsInclusive z) → P)

variable {x : Compiling (List Row)} {P Q : Prop}

theorem entails_pure (h : (∀ row ∈ rows, row.HoldsInclusive z) → P) : Entails z (pure rows) P :=
  ensures_pure fun _ => ⟨fun _ => id, fun _ => h⟩

theorem entails_lift {e : Except Fault (List Row)}
    (h : ∀ rows, e = .ok rows → (∀ row ∈ rows, row.HoldsInclusive z) → P) : Entails z (liftM e) P :=
  ensures_lift fun rows hrows _ => ⟨fun _ => id, fun _ => h rows hrows⟩

theorem Entails.imp (h : Entails z x P) (hPQ : P → Q) : Entails z x Q :=
  h.mono fun _ _ _ ⟨hsub, hmeans⟩ => ⟨hsub, fun hbits hall => hPQ (hmeans hbits hall)⟩

theorem entails_bind_takeCondition {f : String → Compiling (List Row)}
    (h : ∀ name, Reserved name → Entails z (f name) (IsBit (z name) → P)) :
    Entails z (takeCondition index >>= f) P := by
  intro s out t hrun
  obtain ⟨name, u, htake, hrest⟩ := ok_of_run_bind hrun
  obtain ⟨hres, hnoted⟩ := ensures_takeCondition index s name u htake
  obtain ⟨hsub, hmeans⟩ := h name hres u out t hrest
  refine ⟨fun other hother => hsub other ((hnoted other).mpr (Or.inl hother)), fun hbits hall => ?_⟩
  exact hmeans hbits hall (hbits name (hsub name ((hnoted name).mpr (Or.inr rfl))))

/-- A sequence says what its parts say, when the second keeps the rows of the first. -/
theorem entails_bind {f : List Row → Compiling (List Row)} (hx : Entails z x P)
    (hf : ∀ rows, Entails z (f rows) ((∀ row ∈ rows, row.HoldsInclusive z) ∧ Q)) :
    Entails z (x >>= f) (P ∧ Q) := by
  intro s out t hrun
  obtain ⟨rows, u, hfirst, hrest⟩ := ok_of_run_bind hrun
  obtain ⟨hsub, hmeans⟩ := hx s rows u hfirst
  obtain ⟨hsub', hmeans'⟩ := hf rows u out t hrest
  refine ⟨fun name hname => hsub' name (hsub name hname), fun hbits hall => ?_⟩
  obtain ⟨hrows, hQ⟩ := hmeans' hbits hall
  exact ⟨hmeans (fun name hname => hbits name (hsub' name hname)) hrows, hQ⟩

end Entailing

/-! ## Logical forms -/

section Forms

namespace Compiler

theorem holdsInclusive_of_emit (h : ∀ row ∈ k.emit rows, row.HoldsInclusive z) :
    ∀ row ∈ rows, row.HoldsInclusive z :=
  fun _ hrow => Row.holdsInclusive_of_tighten (h _ (List.mem_map_of_mem hrow))

/-- A disjunction by a condition. -/
theorem entails_disjunction (ha : ∀ name ∈ a.names, ¬Reserved name) (hb : ∀ name ∈ b.names, ¬Reserved name)
    (index : Int) : Entails z (k.disjunction a b index) (a.HoldsInclusive z ∨ b.HoldsInclusive z) := by
  refine entails_bind_takeCondition fun condition hres => entails_pure fun hall hbit => ?_
  obtain ⟨hfirst, hsecond⟩ := List.forall_mem_append.mp hall
  have hnot : ∀ {r : Row}, (∀ name ∈ r.names, ¬Reserved name) → ∀ half ∈ (r.tighten k.integral).halves,
      condition ∉ half.names :=
    fun hr half hhalf hmem => hr condition (Row.mem_names_of_tighten (Row.mem_names_of_half hhalf hmem)) hres
  rcases hbit with h0 | h1
  · have hhalves : ∀ half ∈ (a.tighten k.integral).halves, half.HoldsInclusive z := by
      intro half hhalf
      have hrow := (Row.holdsInclusive_withCondition (hnot ha half hhalf) _ _).mp (hfirst _ (List.mem_map_of_mem hhalf))
      rwa [h0, mul_zero, add_zero, add_zero] at hrow
    exact Or.inl (Row.holdsInclusive_of_tighten ((Row.holdsInclusive_halves _ z).mp hhalves))
  · have hhalves : ∀ half ∈ (b.tighten k.integral).halves, half.HoldsInclusive z := by
      intro half hhalf
      have hrow := (Row.holdsInclusive_withCondition (hnot hb half hhalf) _ _).mp (hsecond _ (List.mem_map_of_mem hhalf))
      rwa [h1, mul_one, Comparator.holds_add_right] at hrow
    exact Or.inr (Row.holdsInclusive_of_tighten ((Row.holdsInclusive_halves _ z).mp hhalves))

/-- An implication with a binary in place of a condition. -/
theorem eval_eq_zero_of_zeroConsequent {value : Bool}
    (hall : ∀ row ∈ zeroConsequent name value terms m, row.HoldsInclusive z) (hz : z name = bit value) :
    terms.eval z = 0 := by
  have hside : ∀ sign ∈ ([1, -1] : List Rat), terms.eval z * sign ≤ 0 := by
    intro sign hsign
    have hrow := hall _ (List.mem_map_of_mem hsign)
    cases value
    · have hle := (Row.holdsInclusive_of _ _ _ _ z).mp hrow
      simp only [Bool.false_eq_true, if_false, Comparator.inclusive, Comparator.Holds, Terms.eval_put,
        Terms.eval_scale, hz, bit] at hle
      linarith
    · have hle := (Row.holdsInclusive_of _ _ _ _ z).mp hrow
      simp only [if_true, Comparator.inclusive, Comparator.Holds, Terms.eval_put, Terms.eval_scale, hz, bit] at hle
      linarith
  have hle := hside 1 (by simp)
  have hge := hside (-1) (by simp)
  linarith

/-- The rows of an implication with a strict antecedent: a condition of 1 makes the antecedent fail, and one of
0 enforces the halves. -/
theorem holds_of_conditionalRows
    (hall : ∀ row ∈ conditionalRows a halves m condition, row.HoldsInclusive z) (hbit : IsBit (z condition))
    (hstrict : a.strict = true) (ha : condition ∉ a.names)
    (hhalves : ∀ half ∈ halves, half.strict = false ∧ half.cmp ≠ .eq ∧ condition ∉ half.names)
    (hholds : a.Holds z) : ∀ half ∈ halves, half.HoldsInclusive z := by
  have hscale : ∀ {terms : Terms} (q : Rat), condition ∉ terms.names → condition ∉ (terms.scale q).names :=
    fun q h => by rwa [Terms.names_scale]
  obtain ⟨henforce, hlast⟩ := List.forall_mem_append.mp hall
  have hante := (Row.holdsInclusive_of _ _ _ _ z).mp (hlast _ (List.mem_singleton_self _))
  rw [Terms.eval_put_of_not_mem (hscale _ ha), Terms.eval_scale] at hante
  have hzero : z condition = 0 := by
    refine hbit.resolve_right fun h1 => ?_
    rw [h1] at hante
    unfold Row.Holds at hholds
    unfold Row.strict at hstrict
    cases hcmp : a.cmp <;> rw [hcmp] at hante hholds hstrict <;>
      simp only [Comparator.inclusive, Comparator.Holds, Comparator.strict, Bool.false_eq_true, reduceCtorEq,
        if_true, if_false] at hante hholds hstrict
    · linarith
    · linarith
  intro half hhalf
  obtain ⟨hweak, hne, hnot⟩ := hhalves half hhalf
  have hrow := (Row.holdsInclusive_of _ _ _ _ z).mp (henforce _ (List.mem_map_of_mem hhalf))
  rw [Terms.eval_put_of_not_mem (hscale _ hnot), Terms.eval_scale, hzero] at hrow
  unfold Row.strict at hweak
  unfold Row.HoldsInclusive
  cases hcmp : half.cmp <;> rw [hcmp] at hrow hweak hne <;>
    simp only [Comparator.inclusive, Comparator.Holds, Comparator.strict, reduceCtorEq, ne_eq, not_true_eq_false,
      if_true, if_false] at hrow hweak hne ⊢
  · linarith
  · linarith

theorem entails_conditional (hstrict : a.strict = true) (ha : ∀ name ∈ a.names, ¬Reserved name)
    (hb : ∀ name ∈ b.names, ¬Reserved name) (c : Constraint) (report : String) (index : Int) :
    Entails z (k.conditional a b c report index) (a.Holds z → b.HoldsInclusive z) := by
  unfold conditional
  dsimp only
  split
  · exact ensures_throw _
  · rename_i hany
    refine entails_bind_takeCondition fun condition hres => entails_pure fun hall hbit hholds => ?_
    have hhalves := holds_of_conditionalRows hall hbit hstrict (fun hmem => ha condition hmem hres) ?_ hholds
    · refine (Row.holdsInclusive_halves b z).mp fun half hhalf => ?_
      exact Row.holdsInclusive_of_tighten (hhalves _ (List.mem_map_of_mem hhalf))
    · refine List.forall_mem_map.mpr fun half hhalf => ⟨?_, Row.cmp_tighten (Row.cmp_half hhalf), fun hmem => ?_⟩
      · by_contra hs
        exact hany (List.any_eq_true.mpr ⟨_, List.mem_map_of_mem hhalf, by simpa using hs⟩)
      · exact hb condition (Row.mem_names_of_half hhalf (Row.mem_names_of_tighten hmem)) hres

/-- An implication. -/
theorem entails_implication (hbinary : ∀ name ∈ k.binary, IsBit (z name)) (ha : ∀ name ∈ a.names, ¬Reserved name)
    (hb : ∀ name ∈ b.names, ¬Reserved name) (index : Int) :
    Entails z (k.implication a b index) (a.Holds z → b.HoldsInclusive z) := by
  apply ensures_bind_lift
  intro report _
  dsimp only
  split
  · rename_i hliteral
    apply ensures_bind_lift
    intro truth htruth
    obtain ⟨hmeans, -, hname⟩ := truth_spec hliteral hbinary htruth
    rw [hmeans]
    cases truth with
    | always => exact entails_pure fun hall _ => holdsInclusive_of_emit hall _ (List.mem_singleton_self _)
    | never => exact entails_pure fun _ => False.elim
    | literal name value =>
      dsimp only
      split
      · rename_i hzero
        refine entails_pure fun hall hz => ?_
        rw [Row.HoldsInclusive, hzero.1, hzero.2]
        exact eval_eq_zero_of_zeroConsequent hall hz
      · have hfree : ∀ cmp rhs, ∀ other ∈ (Row.of [(name, 1)] cmp rhs none).names, ¬Reserved other := by
          intro cmp rhs other hother
          rw [List.mem_singleton.mp ((Terms.names_nonzero_sublist _).subset hother)]
          exact ha name (hname name value rfl)
        cases value
        · refine (entails_conditional rfl (hfree _ _) hb _ _ _).imp fun h hz => h ?_
          rw [Row.holds_of, Terms.eval_cons, hz]
          norm_num [bit, Comparator.Holds, Terms.eval]
        · refine (entails_conditional rfl (hfree _ _) hb _ _ _).imp fun h hz => h ?_
          rw [Row.holds_of, Terms.eval_cons, hz]
          norm_num [bit, Comparator.Holds, Terms.eval]
  · split
    · rename_i hstrict
      exact entails_conditional hstrict ha hb _ _ _
    · split
      · rename_i strict hloose
        obtain ⟨hstrict, hholds, hnames⟩ := Row.loosen?_spec hloose
        have hfree : ∀ name ∈ strict.names, ¬Reserved name := fun name hname => ha name (hnames name hname)
        exact (entails_conditional hstrict hfree hb _ _ _).imp fun h hz => h (hholds hz)
      · exact ensures_throw _

theorem entails_equivalence (hbinary : ∀ name ∈ k.binary, IsBit (z name)) (ha : ∀ name ∈ a.names, ¬Reserved name)
    (hb : ∀ name ∈ b.names, ¬Reserved name) (index : Int) :
    Entails z (k.equivalence a b index) ((a.Holds z → b.HoldsInclusive z) ∧ (b.Holds z → a.HoldsInclusive z)) := by
  apply entails_bind (entails_implication hbinary ha hb index)
  intro forth
  refine (entails_bind (entails_implication hbinary hb ha (index + 1)) fun back => ?_).imp And.symm
  exact entails_pure fun hall => (List.forall_mem_append.mp hall).symm

/-- The logical forms that negate no row. -/
theorem entails_compile (hbinary : ∀ name ∈ k.binary, IsBit (z name)) (hc : c.Unreserved)
    (hpos : c.isPositive = true) (index : Int) : Entails z (k.compile c index) (c.HoldsInclusive z) := by
  cases c with
  | plain row => exact ensures_throw _
  | implies p q =>
    exact entails_implication hbinary (hc p List.mem_cons_self) (hc q (by simp [Constraint.operands])) index
  | equivalent p q =>
    exact entails_equivalence hbinary (hc p List.mem_cons_self) (hc q (by simp [Constraint.operands])) index
  | joined operator a b =>
    have ha := hc a List.mem_cons_self
    have hb := hc b (by simp [Constraint.operands])
    cases operator with
    | and =>
      refine entails_pure fun hall => ?_
      have hrows := holdsInclusive_of_emit hall
      exact ⟨hrows a List.mem_cons_self, hrows b (by simp)⟩
    | or =>
      unfold compile junction
      dsimp only
      split
      · rename_i hliteral
        obtain ⟨hka, hkb⟩ := Bool.and_eq_true_iff.mp hliteral
        refine ensures_bind_lift fun x hx => ensures_bind_lift fun y hy => entails_lift fun rows hrows hall => ?_
        obtain ⟨hmeans, hbits, -⟩ := truth_spec hka hbinary hx
        obtain ⟨hmeans', hbits', -⟩ := truth_spec hkb hbinary hy
        exact (says_literalOr hbits hbits' hrows hall).imp (fun h => .of_holds (hmeans.mpr h))
          fun h => .of_holds (hmeans'.mpr h)
      · exact entails_disjunction ha hb index
    | xor => cases hpos
    | nor => cases hpos

/-- All logical forms among some constraints. -/
theorem entails_compileAll (hbinary : ∀ name ∈ k.binary, IsBit (z name)) (hc : ∀ c ∈ constraints, c.Unreserved)
    (hpos : ∀ c ∈ constraints, c.isPositive = true) (index : Int) :
    Entails z (k.compileAll index constraints)
      (∀ c ∈ constraints, (∀ row, c ≠ .plain row) → c.HoldsInclusive z) := by
  induction constraints generalizing index with
  | nil => exact entails_pure fun _ c hmem => absurd hmem List.not_mem_nil
  | cons c rest ih =>
    obtain ⟨hc, hcs⟩ := List.forall_mem_cons.mp hc
    obtain ⟨hpos, hposs⟩ := List.forall_mem_cons.mp hpos
    have hlogical : Entails z (do
        let rows ← k.compile c index
        let _ ← (c.written : Except Fault String)
        return rows ++ (← k.compileAll (index + 2) rest))
        (∀ d ∈ c :: rest, (∀ row, d ≠ .plain row) → d.HoldsInclusive z) := by
      refine (entails_bind (entails_compile hbinary hc hpos index) fun rows => ensures_bind_lift fun _ _ => ?_).imp
        fun h => List.forall_mem_cons.mpr ⟨fun _ => h.1, h.2⟩
      refine (entails_bind (ih hcs hposs (index + 2)) fun others => ?_).imp And.symm
      exact entails_pure fun hall => (List.forall_mem_append.mp hall).symm
    cases c with
    | plain row =>
      exact (ih hcs hposs index).imp fun h => List.forall_mem_cons.mpr ⟨fun hno => absurd rfl (hno row), h⟩
    | implies p q => exact hlogical
    | equivalent p q => exact hlogical
    | joined operator a b => exact hlogical

end Compiler

end Forms

/-! ## The standard form -/

section Standard

variable {split : List String} {form : StandardForm} {derived : List Row} {binary integer unrestricted : List String}
  {splitting : Bool}

/-- A part has a reserved name only when its variable has. -/
theorem not_reserved_of_mem_partsOf {x : String} (h : ¬Reserved x) (hname : name ∈ Terms.partsOf split x) :
    ¬Reserved name := by
  have hsuffix : ∀ (l : List Char) (last : Char), last ≠ 'y' →
      conditionStem.toList.isPrefixOf (l ++ [last]) = true → conditionStem.toList.isPrefixOf l = true := by
    intro l last hlast
    rcases l with _ | ⟨p, _ | ⟨q, rest⟩⟩
    · simp [conditionStem]
    · simp [conditionStem, hlast.symm]
    · simp [conditionStem]
  unfold Terms.partsOf at hname
  split at hname
  · rcases List.mem_pair.mp hname with rfl | rfl
    · intro hres
      rw [Reserved, positivePart, String.toList_append] at hres
      exact h (hsuffix x.toList '+' (by decide) hres)
    · intro hres
      rw [Reserved, negativePart, String.toList_append] at hres
      exact h (hsuffix x.toList '-' (by decide) hres)
  · rwa [List.mem_singleton.mp hname]

/-- A form over parts has only names that its terms write. -/
theorem Terms.exists_of_mem_split (h : name ∈ (terms.split split).names) :
    ∃ x ∈ terms.names, name ∈ partsOf split x := by
  rw [split_eq_foldl] at h
  suffices hgen : ∀ (rest result : Terms), name ∈ (rest.foldl (splitStep split) result).names →
      name ∈ result.names ∨ ∃ x ∈ rest.names, name ∈ partsOf split x from
    (hgen terms [] h).resolve_left List.not_mem_nil
  intro rest
  induction rest with
  | nil => exact fun result => Or.inl
  | cons p rest ih =>
    intro result hmem
    rcases ih _ hmem with hold | ⟨x, hx, hpart⟩
    · rcases mem_names_splitStep.mp hold with hold | hwritten
      · exact Or.inl hold
      · exact Or.inr ⟨p.1, List.mem_cons_self, hwritten⟩
    · exact Or.inr ⟨x, List.mem_cons_of_mem _ hx, hpart⟩

/-- A form over parts has all names that its terms write. -/
theorem Terms.mem_names_split {x k : String} (hx : x ∈ terms.names) (hk : k ∈ partsOf split x) :
    k ∈ (terms.split split).names := by
  rw [split_eq_foldl]
  suffices hgen : ∀ result : Terms, k ∈ result.names ∨ x ∈ terms.names →
      k ∈ (terms.foldl (splitStep split) result).names from hgen [] (Or.inr hx)
  clear hx
  induction terms with
  | nil => exact fun result h => h.resolve_right List.not_mem_nil
  | cons p rest ih =>
    intro result h
    refine ih _ ?_
    rw [mem_names_splitStep]
    rcases h with hold | hx
    · exact Or.inl (Or.inl hold)
    · rcases List.mem_cons.mp hx with rfl | hrest
      · exact Or.inl (Or.inr hk)
      · exact Or.inr hrest

theorem Row.not_reserved_of_mem_split (h : ∀ name ∈ r.names, ¬Reserved name)
    (hname : name ∈ (r.split split).names) :
    ¬Reserved name := by
  unfold Row.split at hname
  split at hname
  · obtain ⟨x, hx, hpart⟩ := Terms.exists_of_mem_split ((Terms.names_nonzero_sublist _).subset hname)
    exact not_reserved_of_mem_partsOf (h x hx) hpart
  · exact h name hname

theorem Constraint.Unreserved.mapRows_split (hc : c.Unreserved) (split : List String) :
    (c.mapRows fun r => r.split split).Unreserved := by
  have hrow := fun (r : Row) (hr : r ∈ c.operands) name (hname : name ∈ (r.split split).names) =>
    Row.not_reserved_of_mem_split (hc r hr) hname
  cases c <;> simpa [Constraint.Unreserved, Constraint.mapRows, Constraint.operands] using hrow

theorem Constraint.isPositive_mapRows (c : Constraint) (f : Row → Row) : (c.mapRows f).isPositive = c.isPositive := by
  cases c with
  | plain row => rfl
  | implies p q => rfl
  | equivalent p q => rfl
  | joined operator a b => cases operator <;> rfl

/-- Constraints over rows that say the same say the same. -/
theorem Constraint.holdsInclusive_mapRows_iff {f : Row → Row}
    (hholds : ∀ r ∈ c.operands, (f r).Holds z ↔ r.Holds v)
    (hinclusive : ∀ r ∈ c.operands, (f r).HoldsInclusive z ↔ r.HoldsInclusive v) :
    (c.mapRows f).HoldsInclusive z ↔ c.HoldsInclusive v := by
  cases c with
  | plain row => exact hinclusive row List.mem_cons_self
  | implies p q => exact imp_congr (hholds p List.mem_cons_self) (hinclusive q (by simp [operands]))
  | equivalent p q =>
    have hp : p ∈ (equivalent p q).operands := List.mem_cons_self
    have hq : q ∈ (equivalent p q).operands := by simp [operands]
    exact and_congr (imp_congr (hholds p hp) (hinclusive q hq)) (imp_congr (hholds q hq) (hinclusive p hp))
  | joined operator a b =>
    unfold HoldsInclusive mapRows
    dsimp only
    rw [hinclusive a List.mem_cons_self, hinclusive b (by simp [operands])]

/-- A constraint over parts says what it says of the assignment that they stand for. -/
theorem Constraint.holdsInclusive_split (hc : c.Keyed) (h : ∀ row ∈ c.operands, Unsplit split row.names)
    (hz : ∀ row ∈ c.operands, ∀ name ∈ row.names, joinParts split z name = v name) :
    (c.mapRows fun r => r.split split).HoldsInclusive z ↔ c.HoldsInclusive v := by
  refine holdsInclusive_mapRows_iff (fun r hr => ?_) fun r hr => ?_
  · rw [Row.holds_split (hc r hr) (h r hr), Row.Holds, Row.Holds, Terms.eval_congr (hz r hr)]
  · rw [Row.holdsInclusive_split (hc r hr) (h r hr), Row.HoldsInclusive, Row.HoldsInclusive,
      Terms.eval_congr (hz r hr)]

theorem StandardForm.MadeOf.not_reserved_of_operand
    (h : form.MadeOf constraints binary integer unrestricted splitting derived) (hc : c ∈ constraints)
    (hrow : r ∈ c.operands) (hname : name ∈ r.names) : ¬Reserved name :=
  not_reserved_of_isEmpty h.none_reserved (List.mem_append_right _
    (List.mem_flatMap.mpr ⟨c, hc, List.mem_flatMap.mpr ⟨r, hrow, hname⟩⟩))

/-- Conditions have reserved names, and parts of variables have not. -/
theorem StandardForm.MadeOf.condition_ne_part
    (h : form.MadeOf constraints binary integer unrestricted splitting derived)
    (hkeyed : ∀ c ∈ constraints, c.Keyed) (hname : name ∈ form.condition) :
    ∀ y ∈ form.split, name ≠ positivePart y ∧ name ≠ negativePart y := by
  intro y hy
  have hfree : ¬Reserved y := not_reserved_of_isEmpty h.none_reserved
    (List.mem_append_left _ (List.mem_append_right _ (h.mem_of_split hy).1))
  have hpart : ∀ {k}, k ∈ Terms.partsOf form.split y → name ≠ k := fun hk heq =>
    not_reserved_of_mem_partsOf hfree hk (heq ▸ (h.tidy hkeyed).2 name hname)
  rw [Terms.partsOf, if_pos hy] at hpart
  exact ⟨hpart (by simp), hpart (by simp)⟩

/-- Where the rows of a standard form hold, read as inclusive, and binaries and conditions are 0 or 1, the
constraints hold of an assignment that the parts stand for. -/
theorem StandardForm.MadeOf.holdsInclusive
    (h : form.MadeOf constraints binary integer unrestricted splitting derived)
    (hkeyed : ∀ c ∈ constraints, c.Keyed) (hpos : ∀ c ∈ constraints, c.isPositive = true)
    (hunsplit : ∀ c ∈ constraints, ∀ row ∈ c.operands, Unsplit form.split row.names)
    (hbits : ∀ name ∈ binary ++ form.condition, IsBit (z name)) (hrows : ∀ row ∈ form.rows, row.HoldsInclusive z)
    (hz : ∀ c ∈ constraints, ∀ row ∈ c.operands, ∀ name ∈ row.names, joinParts form.split z name = v name) :
    ∀ c ∈ constraints, c.HoldsInclusive v := by
  intro c hc
  obtain ⟨hbinary, hcondition⟩ := List.forall_mem_append.mp hbits
  rw [h.rows_eq] at hrows
  obtain ⟨hplain, hderived⟩ := List.forall_mem_append.mp hrows
  have hunreserved : ∀ c ∈ constraints, c.Unreserved :=
    fun c hc row hrow name hname => h.not_reserved_of_operand hc hrow hname
  have hlogical := (Compiler.entails_compileAll (z := z) hbinary
    (List.forall_mem_map.mpr fun c hc => (hunreserved c hc).mapRows_split form.split)
    (List.forall_mem_map.mpr fun c hc => (c.isPositive_mapRows _).trans (hpos c hc)) 0 _ _ _ h.run_eq).2
    hcondition hderived
  rw [← Constraint.holdsInclusive_split (hkeyed c hc) (hunsplit c hc) (hz c hc)]
  have hmem : (c.mapRows fun r => r.split form.split) ∈ splitConstraints constraints form.split :=
    List.mem_map_of_mem hc
  by_cases hlog : ∃ row, (c.mapRows fun r => r.split form.split) = .plain row
  · obtain ⟨row, heq⟩ := hlog
    rw [heq] at hmem ⊢
    refine Row.holdsInclusive_of_tighten (hplain _ (List.mem_map_of_mem ?_))
    exact List.mem_filterMap.mpr ⟨_, hmem, rfl⟩
  · exact hlogical _ hmem fun row heq => hlog ⟨row, heq⟩

end Standard

end ExactLP
