import ExactLP.Proofs.Standard.Commutation

/-!
# Proofs.Standard.Splitting — what is standardized without splitting is standardized with it

A row over parts has the comparator and the right side of its row, its numbers are those of the row up to their sign,
and it is integral where the row is.  So every check that a compilation without splitting passes is passed with
splitting as well, and the same conditions are taken.  This holds whatever the parts are called; where a part has the
name of another variable only the rows differ.

* `Row.Follows`: what a row over parts keeps; `Row.follows_split`: it does so.
* `Succeeds`: one computation goes through, with the same conditions, wherever another one does.
* `Compiler.succeeds_compileAll`: the constraints of a list.
* `standardize_split_of_ok`: the standard form.
-/

namespace ExactLP

variable {r r' a a' b b' : Row} {k k' : Compiler} {c : Constraint} {constraints : List Constraint} {index : Int}
  {split binary integer unrestricted : List String} {terms : Terms} {name : String}

/-! ## Definitions -/

section Defs

/-- The form holds no zero coefficient. -/
def Terms.Nonzero (terms : Terms) : Prop := ∀ p ∈ terms, p.2 ≠ 0

instance (terms : Terms) : Decidable terms.Nonzero := inferInstanceAs (Decidable (∀ p ∈ terms, p.2 ≠ 0))

/-- The second compiler is the first one over parts, as far as its checks go. -/
structure Compiler.Follows (split : List String) (k k' : Compiler) : Prop where
  binary : k'.binary = k.binary
  whole : ∀ x ∈ split, x ∉ k.binary
  integral : ∀ x ∈ k.integral, ∀ name ∈ Terms.partsOf split x, name ∈ k'.integral

/-- The second row passes every check that the first one passes. -/
structure Row.Follows (k k' : Compiler) (r r' : Row) : Prop where
  cmp : r'.cmp = r.cmp
  rhs : r'.rhs = r.rhs
  nonzero : r.terms.Nonzero
  nonzero' : r'.terms.Nonzero
  /-- A row over a single binary stays the same. -/
  literal : r' = r ∨ k.isLiteral r = false ∧ k'.isLiteral r' = false
  integral : r.isIntegral k.integral = true → r'.isIntegral k'.integral = true
  writable : r.Writable → r'.Writable

end Defs

/-! ## Rows over parts -/

section Rows

theorem Terms.nonzero_eq (h : terms.Nonzero) : terms.nonzero = terms :=
  List.filter_eq_self.mpr fun p hp => by simpa using h p hp

/-- Every coefficient over parts is one of the form, up to its sign. -/
theorem Terms.exists_coefficient_of_mem_split {p : String × Rat} (h : p ∈ terms.split split) :
    ∃ q ∈ terms, p.2 = q.2 ∨ p.2 = -q.2 := by
  suffices hall : ∀ p ∈ terms.split split, ∃ q ∈ terms, p.2 = q.2 ∨ p.2 = -q.2 from hall p h
  rw [split_eq_foldl]
  refine List.foldlRecOn (motive := fun result : Terms => ∀ p ∈ result, ∃ q ∈ terms, p.2 = q.2 ∨ p.2 = -q.2) terms _
    (List.forall_mem_nil _) fun result hresult q hq p hp => ?_
  unfold splitStep at hp
  split at hp
  · rcases Keyed.mem_or_eq_of_mem_put hp with hp | rfl
    · rcases Keyed.mem_or_eq_of_mem_put hp with hp | rfl
      · exact hresult p hp
      · exact ⟨q, hq, Or.inl rfl⟩
    · exact ⟨q, hq, Or.inr rfl⟩
  · rcases Keyed.mem_or_eq_of_mem_put hp with hp | rfl
    · exact hresult p hp
    · exact ⟨q, hq, Or.inl rfl⟩

theorem Terms.nonzero_split (h : terms.Nonzero) (split : List String) : (terms.split split).Nonzero := by
  intro p hp
  obtain ⟨q, hq, heq | heq⟩ := exists_coefficient_of_mem_split hp
  · exact heq ▸ h q hq
  · exact heq ▸ neg_ne_zero.mpr (h q hq)

/-- A row whose form is split. -/
theorem Row.terms_split (hr : r.terms.Nonzero) (h : r.names.any (· ∈ split) = true) :
    (r.split split).terms = r.terms.split split := by
  unfold Row.split
  rw [if_pos h]
  exact Terms.nonzero_eq (Terms.nonzero_split hr split)

theorem Row.isIntegral_iff {integral : List String} :
    r.isIntegral integral = true ↔ r.terms ≠ [] ∧ ∀ p ∈ r.terms, p.1 ∈ integral ∧ p.2.den = 1 := by
  simp [isIntegral]

/-- A row in which some variable is split is over two names at least. -/
theorem Row.not_single_of_split {x y : String} (hr : r.terms.Nonzero) (hx : x ∈ r.names) (hsplit : x ∈ split) :
    (r.split split).names ≠ [y] := by
  intro hnames
  have hpart : ∀ name ∈ Terms.partsOf split x, name = y := by
    intro name hname
    have hmem : name ∈ (r.terms.split split).names := Terms.mem_names_split hx hname
    rw [← terms_split hr (List.any_eq_true.mpr ⟨x, hx, decide_eq_true hsplit⟩)] at hmem
    exact List.mem_singleton.mp (hnames ▸ hmem)
  rw [partsOf_of_mem hsplit] at hpart
  have hpos := hpart (positivePart x) (by simp)
  have hneg := hpart (negativePart x) (by simp)
  exact positivePart_ne_negativePart x x (hpos.trans hneg.symm)

/-- The parts of integral variables are integral, and so are the numbers before them. -/
theorem Row.isIntegral_split {integral integral' : List String} (hr : r.terms.Nonzero)
    (hsub : ∀ x ∈ integral, ∀ name ∈ Terms.partsOf split x, name ∈ integral')
    (hany : r.names.any (· ∈ split) = true) (h : r.isIntegral integral = true) :
    (r.split split).isIntegral integral' = true := by
  obtain ⟨hne, hall⟩ := isIntegral_iff.mp h
  rw [isIntegral_iff, terms_split hr hany]
  obtain ⟨x, hx, hsplit⟩ := List.any_eq_true.mp hany
  constructor
  · intro hnil
    have hpart : positivePart x ∈ Terms.partsOf split x := by
      rw [partsOf_of_mem (of_decide_eq_true hsplit)]
      exact List.mem_cons_self
    have hmem := Terms.mem_names_split hx hpart
    rw [hnil] at hmem
    exact absurd hmem List.not_mem_nil
  · intro p hp
    obtain ⟨y, hy, hpart⟩ := Terms.exists_of_mem_split (List.mem_map_of_mem hp)
    obtain ⟨q, hq, rfl⟩ := List.mem_map.mp hy
    obtain ⟨t, ht, heq⟩ := Terms.exists_coefficient_of_mem_split hp
    refine ⟨hsub q.1 (hall q hq).1 p.1 hpart, ?_⟩
    rcases heq with heq | heq
    · exact heq ▸ (hall t ht).2
    · rw [heq, Rat.neg_den]
      exact (hall t ht).2

theorem Row.writable_split (hr : r.terms.Nonzero) (hany : r.names.any (· ∈ split) = true) (h : r.Writable) :
    (r.split split).Writable := by
  obtain ⟨hterms, hrhs⟩ := h
  rw [Terms.nonzero_eq hr] at hterms
  refine ⟨fun p hp => ?_, by rwa [rhs_split]⟩
  rw [terms_split hr hany] at hp
  obtain ⟨q, hq, heq | heq⟩ := Terms.exists_coefficient_of_mem_split (List.mem_filter.mp hp).1
  · exact heq ▸ hterms q hq
  · rw [heq, writable_neg]
    exact hterms q hq

/-- A row over parts follows its row. -/
theorem Row.follows_split (hk : k.Follows split k') (hr : r.terms.Nonzero) : r.Follows k k' (r.split split) := by
  by_cases hany : r.names.any (· ∈ split) = true
  · obtain ⟨x, hx, hsplit⟩ := List.any_eq_true.mp hany
    have hsplit : x ∈ split := of_decide_eq_true hsplit
    refine ⟨cmp_split _ _, rhs_split _ _, hr, ?_, Or.inr ⟨?_, ?_⟩, isIntegral_split hr hk.integral hany,
      writable_split hr hany⟩
    · exact terms_split hr hany ▸ Terms.nonzero_split hr split
    · rw [← Bool.not_eq_true]
      intro hliteral
      obtain ⟨y, hy, hnames⟩ := Compiler.exists_of_isLiteral hliteral
      rw [hnames, List.mem_singleton] at hx
      exact hk.whole x hsplit (hx ▸ hy)
    · rw [← Bool.not_eq_true]
      intro hliteral
      obtain ⟨y, -, hnames⟩ := Compiler.exists_of_isLiteral hliteral
      exact not_single_of_split hr hx hsplit hnames
  · have hsame : r.split split = r := if_neg hany
    rw [hsame]
    refine ⟨rfl, rfl, hr, hr, Or.inl rfl, fun h => ?_, id⟩
    obtain ⟨hne, hall⟩ := isIntegral_iff.mp h
    refine isIntegral_iff.mpr ⟨hne, fun p hp => ⟨hk.integral p.1 (hall p hp).1 p.1 ?_, (hall p hp).2⟩⟩
    have hnot : p.1 ∉ split := fun hsplit =>
      hany (List.any_eq_true.mpr ⟨p.1, List.mem_map_of_mem hp, decide_eq_true hsplit⟩)
    simp [Terms.partsOf, hnot]

end Rows

/-! ## What is kept by what follows -/

section Following

namespace Row.Follows

theorem strict_eq (h : r.Follows k k' r') : r'.strict = r.strict := congrArg Comparator.strict h.cmp

theorem isLiteral_eq (h : r.Follows k k' r') (hk : k'.binary = k.binary) : k'.isLiteral r' = k.isLiteral r := by
  rcases h.literal with rfl | ⟨hno, hno'⟩
  · unfold Compiler.isLiteral
    rw [hk]
  · rw [hno, hno']

theorem eq_of_isLiteral (h : r.Follows k k' r') (hliteral : k.isLiteral r = true) : r' = r := by
  rcases h.literal with heq | ⟨hno, -⟩
  · exact heq
  · exact absurd hliteral (Bool.eq_false_iff.mp hno)

theorem loosen?_isSome (h : r.Follows k k' r') (hsome : (r.loosen? k.integral).isSome) :
    (r'.loosen? k'.integral).isSome := by
  unfold loosen? at hsome ⊢
  by_cases hintegral : r.isIntegral k.integral = true
  · rw [if_pos hintegral] at hsome
    rw [if_pos (h.integral hintegral), h.cmp]
    revert hsome
    cases r.cmp <;> simp
  · rw [if_neg hintegral] at hsome
    cases hsome

/-- The negation has the terms of its row, so it passes the same checks. -/
theorem negated (h : r.Follows k k' r') : r.negated.Follows k k' r'.negated := by
  have hterms : r.negated.terms = r.terms := Terms.nonzero_eq h.nonzero
  have hterms' : r'.negated.terms = r'.terms := Terms.nonzero_eq h.nonzero'
  refine ⟨congrArg Comparator.opposite h.cmp, h.rhs, hterms ▸ h.nonzero, hterms' ▸ h.nonzero', ?_, ?_, ?_⟩
  · refine h.literal.imp (congrArg Row.negated) ?_
    unfold Compiler.isLiteral Row.names
    rw [hterms, hterms']
    exact id
  · rw [isIntegral_iff, isIntegral_iff, hterms, hterms', ← isIntegral_iff, ← isIntegral_iff]
    exact h.integral
  · unfold Row.Writable
    rw [hterms, hterms']
    exact h.writable

end Row.Follows

end Following

/-! ## Computations that go through -/

section Succeeding

variable {α β γ δ : Type} {x : Compiling α} {y : Compiling β} {f : α → Compiling γ} {g : β → Compiling δ}

/-- Wherever the first computation goes through the second one does, and takes the same conditions. -/
def Succeeds (x : Compiling α) (y : Compiling β) : Prop :=
  Ensures x fun taken _ taken' => ∃ b, y.run taken = (.ok b, taken')

theorem succeeds_pure (a : α) (b : β) : Succeeds (pure a) (pure b) := ensures_pure fun _ => ⟨b, rfl⟩

theorem succeeds_refl (x : Compiling α) : Succeeds x x := fun _ a _ hrun => ⟨a, hrun⟩

theorem succeeds_lift {e : Except Fault α} {e' : Except Fault β} (h : ∀ a, e = .ok a → ∃ b, e' = .ok b) :
    Succeeds (liftM e) (liftM e') := by
  refine ensures_lift fun a ha taken => ?_
  obtain ⟨b, rfl⟩ := h a ha
  exact ⟨b, rfl⟩

theorem Succeeds.bind (h : Succeeds x y) (hf : ∀ a b, Succeeds (f a) (g b)) : Succeeds (x >>= f) (y >>= g) := by
  intro taken c taken' hrun
  obtain ⟨a, between, hx, hrest⟩ := ok_of_run_bind hrun
  obtain ⟨b, hy⟩ := h _ _ _ hx
  obtain ⟨d, hg⟩ := hf a b _ _ _ hrest
  exact ⟨d, (run_bind_of_ok hy).trans hg⟩

/-- Two computations that begin alike. -/
theorem succeeds_bind {g : α → Compiling δ} (x : Compiling α) (hf : ∀ a, Succeeds (f a) (g a)) :
    Succeeds (x >>= f) (x >>= g) := by
  intro taken c taken' hrun
  obtain ⟨a, between, hx, hrest⟩ := ok_of_run_bind hrun
  obtain ⟨d, hg⟩ := hf a _ _ _ hrest
  exact ⟨d, (run_bind_of_ok hx).trans hg⟩

end Succeeding

/-! ## Logical forms -/

section Forms

namespace Compiler

theorem strict_tighten (r : Row) (integral : List String) :
    (r.tighten integral).strict = (r.strict && !r.isIntegral integral) := by
  unfold Row.tighten
  by_cases hintegral : r.isIntegral integral = true
  · rw [hintegral, Bool.and_true, Bool.not_true, Bool.and_false]
    obtain ⟨terms, cmp, rhs, label⟩ := r
    cases cmp <;> rfl
  · rw [Bool.not_eq_true] at hintegral
    rw [hintegral, Bool.and_false, if_neg Bool.false_ne_true, Bool.not_false, Bool.and_true]

/-- A consequent is refused exactly when it is strict and not integral. -/
theorem any_strict_halves (r : Row) (integral : List String) :
    ((r.halves.map fun half => half.tighten integral).any Row.strict) = (r.strict && !r.isIntegral integral) := by
  unfold Row.halves
  split
  · rename_i hcmp
    have hweak : r.strict = false := by
      rw [Row.strict, hcmp]
      rfl
    simp only [List.map_cons, List.map_nil, List.any_cons, List.any_nil, strict_tighten, hweak, Bool.false_and]
    rfl
  · simp [strict_tighten]

theorem succeeds_conditional {origin origin' : Constraint} {report report' : String} {p p' : Row}
    (hb : b.Follows k k' b') : Succeeds (k.conditional p b origin report index)
      (k'.conditional p' b' origin' report' index) := by
  unfold conditional
  dsimp only
  rw [any_strict_halves, any_strict_halves, hb.strict_eq]
  by_cases hrefused : (b.strict && !b.isIntegral k.integral) = true
  · rw [if_pos hrefused]
    exact ensures_throw _
  · rw [if_neg hrefused, if_neg]
    · exact succeeds_bind _ fun _ => succeeds_pure _ _
    · intro hrefused'
      simp only [Bool.and_eq_true, Bool.not_eq_true', not_and, Bool.not_eq_false] at hrefused hrefused'
      exact Bool.false_ne_true (hrefused'.2.symm.trans (hb.integral (hrefused hrefused'.1)))

/-- A constraint over rows that follow can be written where the constraint can. -/
theorem exists_written {c c' : Constraint} (h : List.Forall₂ (Row.Follows k k') c.operands c'.operands) (text : String)
    (hc : (liftM c.written : Except Fault String) = .ok text) :
    ∃ text', (liftM c'.written : Except Fault String) = .ok text' := by
  have hwritable : ∀ row ∈ c.operands, row.Writable := by
    rcases c.goesThrough_written with ⟨hwritable, -⟩ | ⟨-, herror⟩
    · exact hwritable
    · cases herror.symm.trans (ok_of_lift hc)
  have hwritable' : ∀ row ∈ c'.operands, row.Writable := by
    generalize c.operands = rows at h hwritable
    generalize c'.operands = rows' at h
    induction h with
    | nil => exact List.forall_mem_nil _
    | cons hrow _ ih =>
      rw [List.forall_mem_cons] at hwritable ⊢
      exact ⟨hrow.writable hwritable.1, ih hwritable.2⟩
  rcases c'.goesThrough_written with ⟨-, text', htext⟩ | ⟨hnot, -⟩
  · exact ⟨text', by rw [htext]; rfl⟩
  · exact absurd hwritable' hnot

theorem succeeds_implication (hk : k'.binary = k.binary) (ha : a.Follows k k' a') (hb : b.Follows k k' b')
    (index : Int) : Succeeds (k.implication a b index) (k'.implication a' b' index) := by
  refine (succeeds_lift (exists_written (.cons ha (.cons hb .nil)))).bind fun report report' => ?_
  · dsimp only
    rw [ha.isLiteral_eq hk, ha.strict_eq]
    split
    · rename_i hliteral
      obtain rfl := ha.eq_of_isLiteral hliteral
      refine succeeds_bind _ fun truth => ?_
      cases truth with
      | always => exact succeeds_pure _ _
      | never => exact succeeds_pure _ _
      | literal name value =>
        dsimp only
        rw [hb.cmp, hb.rhs]
        split
        · exact succeeds_pure _ _
        · exact succeeds_conditional hb
    · split
      · exact succeeds_conditional hb
      · cases hloosen : a.loosen? k.integral with
        | none => exact ensures_throw _
        | some strict =>
          obtain ⟨strict', hstrict'⟩ := Option.isSome_iff_exists.mp (ha.loosen?_isSome (hloosen ▸ rfl))
          rw [hstrict']
          exact succeeds_conditional hb

theorem succeeds_equivalence (hk : k'.binary = k.binary) (ha : a.Follows k k' a') (hb : b.Follows k k' b')
    (index : Int) : Succeeds (k.equivalence a b index) (k'.equivalence a' b' index) :=
  (succeeds_implication hk ha hb index).bind fun _ _ =>
    (succeeds_implication hk hb ha (index + 1)).bind fun _ _ => succeeds_pure _ _

/-- Two literals are the same over parts. -/
theorem eq_of_literals (ha : a.Follows k k' a') (hb : b.Follows k k' b')
    (hliteral : (k.isLiteral a && k.isLiteral b) = true) : a' = a ∧ b' = b := by
  rw [Bool.and_eq_true] at hliteral
  exact ⟨ha.eq_of_isLiteral hliteral.1, hb.eq_of_isLiteral hliteral.2⟩

theorem succeeds_junction (hk : k'.binary = k.binary) (ha : a.Follows k k' a') (hb : b.Follows k k' b')
    (operator : Junction) (index : Int) :
    Succeeds (k.junction operator a b index) (k'.junction operator a' b' index) := by
  cases operator with
  | and => exact succeeds_pure _ _
  | nor => exact succeeds_pure _ _
  | or =>
    unfold junction
    dsimp only
    rw [ha.isLiteral_eq hk, hb.isLiteral_eq hk]
    split
    · rename_i hliteral
      obtain ⟨rfl, rfl⟩ := eq_of_literals ha hb hliteral
      exact succeeds_refl _
    · exact succeeds_bind _ fun _ => succeeds_pure _ _
  | xor =>
    unfold junction
    dsimp only
    rw [ha.isLiteral_eq hk, hb.isLiteral_eq hk]
    split
    · rename_i hliteral
      obtain ⟨rfl, rfl⟩ := eq_of_literals ha hb hliteral
      exact succeeds_refl _
    · exact succeeds_equivalence hk ha hb.negated index

theorem succeeds_compile {f : Row → Row} (hk : k'.binary = k.binary)
    (hc : ∀ row ∈ c.operands, row.Follows k k' (f row)) (index : Int) :
    Succeeds (k.compile c index) (k'.compile (c.mapRows f) index) := by
  cases c with
  | plain row => exact ensures_throw _
  | implies p q => exact succeeds_implication hk (hc p List.mem_cons_self) (hc q (by simp [Constraint.operands])) index
  | equivalent p q => exact succeeds_equivalence hk (hc p List.mem_cons_self) (hc q (by simp [Constraint.operands])) index
  | joined operator a b =>
    exact succeeds_junction hk (hc a List.mem_cons_self) (hc b (by simp [Constraint.operands])) operator index

theorem succeeds_compileAll {f : Row → Row} (hk : k'.binary = k.binary)
    (h : ∀ c ∈ constraints, ∀ row ∈ c.operands, row.Follows k k' (f row)) (index : Int) :
    Succeeds (k.compileAll index constraints) (k'.compileAll index (constraints.map fun c => c.mapRows f)) := by
  induction constraints generalizing index with
  | nil => exact succeeds_pure _ _
  | cons c rest ih =>
    obtain ⟨hc, hrest⟩ := List.forall_mem_cons.mp h
    have hoperands : List.Forall₂ (Row.Follows k k') c.operands (c.mapRows f).operands := by
      have hmap : (c.mapRows f).operands = c.operands.map f := by cases c <;> rfl
      rw [hmap, List.forall₂_map_right_iff]
      exact List.forall₂_same.mpr hc
    have hlogical : Succeeds
        (do
          let rows ← k.compile c index
          let _ ← (c.written : Except Fault String)
          return rows ++ (← k.compileAll (index + 2) rest))
        (do
          let rows ← k'.compile (c.mapRows f) index
          let _ ← ((c.mapRows f).written : Except Fault String)
          return rows ++ (← k'.compileAll (index + 2) (rest.map fun c => c.mapRows f))) :=
      (succeeds_compile hk hc index).bind fun _ _ =>
        (succeeds_lift (exists_written hoperands)).bind fun _ _ =>
          (ih hrest (index + 2)).bind fun _ _ => succeeds_pure _ _
    cases c with
    | plain row => exact ih hrest index
    | implies p q => exact hlogical
    | equivalent p q => exact hlogical
    | joined operator a b => exact hlogical

end Compiler

end Forms

/-! ## The standard form -/

section Standard

theorem follows_compiler (hsplit : ∀ x ∈ split, x ∉ binary) (others others' : List Row) :
    Compiler.Follows split ⟨others, binary, integralNames binary integer []⟩
      ⟨others', binary, integralNames binary integer split⟩ where
  binary := rfl
  whole := hsplit
  integral := by
    intro x hx name hname
    apply mem_integralNames_of_declared
    unfold Terms.partsOf at hname
    split at hname
    · rename_i hmem
      exact Or.inr ⟨x, hmem, hx, List.mem_pair.mp hname⟩
    · exact Or.inl (List.mem_singleton.mp hname ▸ hx)

/-- What is standardized without splitting is standardized with it, and has the same conditions.  Rows have no zero
coefficient, as every row that is read. -/
theorem standardize_split_of_ok {plain : StandardForm}
    (hrows : ∀ c ∈ constraints, ∀ row ∈ c.operands, row.terms.Nonzero)
    (h : standardize constraints binary integer unrestricted false = .ok plain) :
    ∃ parts, standardize constraints binary integer unrestricted true = .ok parts ∧
      parts.condition = plain.condition := by
  obtain ⟨derived, hmade⟩ := exists_madeOf h
  have hnone : plain.split = [] := hmade.split_eq
  have hrun := hmade.run_eq
  rw [hnone, splitConstraints_nil] at hrun
  rw [standardize_eq hmade.none_reserved _ rfl, if_pos rfl]
  generalize hsplit : (unrestricted.filter fun name => !binary.contains name) = split
  have hbinary : ∀ x ∈ split, x ∉ binary := by
    intro x hx
    rw [← hsplit] at hx
    simpa using (List.mem_filter.mp hx).2
  have hk : Compiler.Follows split
      ⟨tightenedRows constraints binary integer [], binary, integralNames binary integer []⟩
      ⟨tightenedRows constraints binary integer split, binary, integralNames binary integer split⟩ :=
    follows_compiler hbinary _ _
  obtain ⟨derived', hrun'⟩ := Compiler.succeeds_compileAll hk.binary
    (fun c hc row hrow => Row.follows_split hk (hrows c hc row hrow)) 0 _ _ _ hrun
  refine ⟨⟨tightenedRows constraints binary integer split ++ derived', plain.condition, split⟩, ?_, rfl⟩
  unfold splitConstraints
  rw [hrun']
  rfl

end Standard

end ExactLP
