import ExactLP.Proofs.Runs
import ExactLP.Proofs.Standard.Split
import ExactLP.Standard.Form

/-!
# Proofs.Standard.Compile — the names in compiled rows

Compiling keeps the rows of forms over distinct names so: every row that comes out holds each name once.  The
only names that it takes are reserved for conditions, and no variable of a problem has such a name.

* `Tidy`: both facts about one computation; `tidy_compileAll`: they hold of a whole list of constraints.
* `standardForm_spec`: what they say of the standard form of a problem.
-/

namespace ExactLP

/-- Every row of the constraint holds each name once. -/
def Constraint.Keyed (c : Constraint) : Prop := ∀ row ∈ c.operands, row.names.Nodup

instance (c : Constraint) : Decidable c.Keyed :=
  inferInstanceAs (Decidable (∀ row ∈ c.operands, row.names.Nodup))

/-- The objective and the rows of a problem hold each name once. -/
structure Problem.Keyed (p : Problem) : Prop where
  objective : p.objective.names.Nodup
  constraints : ∀ c ∈ p.constraints, c.Keyed

/-- The name starts like that of a condition binary. -/
def Reserved (name : String) : Prop := conditionStem.toList.isPrefixOf name.toList = true

variable {r a b : Row} {rows halves : List Row} {split integral : List String} {k : Compiler} {c : Constraint}
  {index : Int}

/-! ## Single rows -/

section Rows

namespace Row

theorem nodup_names_split (h : r.names.Nodup) (split : List String) : (r.split split).names.Nodup := by
  unfold Row.split
  split
  · exact nodup_names_of (Terms.nodup_split _ _) _ _ _
  · exact h

theorem nodup_names_tighten (h : r.names.Nodup) (integral : List String) :
    (r.tighten integral).names.Nodup := by
  unfold tighten
  split
  · split
    · exact nodup_names_of h _ _ _
    · exact nodup_names_of h _ _ _
  · exact h

theorem nodup_names_loosen? (h : r.names.Nodup) (hs : r.loosen? integral = some a) : a.names.Nodup := by
  unfold loosen? at hs
  split at hs
  · split at hs
    · exact Option.some.inj hs ▸ nodup_names_of h _ _ _
    · exact Option.some.inj hs ▸ nodup_names_of h _ _ _
    · cases hs
  · cases hs

theorem nodup_names_halves (h : r.names.Nodup) : ∀ half ∈ r.halves, half.names.Nodup := by
  unfold halves
  split
  · rw [List.forall_mem_cons, List.forall_mem_singleton]
    exact ⟨nodup_names_of h _ _ _, nodup_names_of h _ _ _⟩
  · rwa [List.forall_mem_singleton]

theorem nodup_names_withCondition (h : r.names.Nodup) (condition : String) (c shift : Rat) :
    (r.withCondition condition c shift).names.Nodup :=
  nodup_names_of (ExactLP.Keyed.nodup_put h _ _) _ _ _

end Row

theorem Terms.nodup_single (name : String) (c : Rat) : (Keyed.names [(name, c)]).Nodup :=
  List.nodup_singleton name

theorem nodup_names_literalRow (name : String) (value : Bool) : (literalRow name value).names.Nodup :=
  Row.nodup_names_of (Terms.nodup_single name _) _ _ _

end Rows

/-! ## Computations that take conditions -/

section Tidying

/-- The rows that come out hold each name once, and only reserved names are taken. -/
def Tidy (x : Compiling (List Row)) : Prop :=
  ∀ s rows t, x.run s = (.ok rows, t) → (∀ name ∈ s, Reserved name) →
    (∀ row ∈ rows, row.names.Nodup) ∧ ∀ name ∈ t, Reserved name

variable {x : Compiling (List Row)}

theorem tidy_pure (h : ∀ row ∈ rows, row.names.Nodup) : Tidy (pure rows) :=
  ensures_pure fun _ hs => ⟨h, hs⟩

theorem tidy_lift {e : Except Fault (List Row)} (h : ∀ rows, e = .ok rows → ∀ row ∈ rows, row.names.Nodup) :
    Tidy (liftM e) :=
  ensures_lift fun rows hrows _ hs => ⟨h rows hrows, hs⟩

theorem reserved_condition (index : Int) : Reserved s!"{conditionStem}{index}" := by
  unfold Reserved
  rw [List.isPrefixOf_iff_prefix]
  exact ⟨(toString index).toList, String.toList_append.symm⟩

/-- A condition that is taken has a reserved name, and is noted behind those that were taken before. -/
theorem ensures_takeCondition (index : Int) : Ensures (takeCondition index) fun s name t =>
    Reserved name ∧ ∀ other, other ∈ t ↔ other ∈ s ∨ other = name := by
  intro s name t hrun
  obtain ⟨hname, rfl⟩ := Prod.mk.inj hrun
  obtain rfl := Except.ok.inj hname
  refine ⟨reserved_condition index, fun other => ?_⟩
  dsimp only
  split
  · rename_i hmem
    exact ⟨Or.inl, fun h => h.elim id fun heq => heq ▸ List.contains_iff_mem.mp hmem⟩
  · rw [List.mem_append, List.mem_singleton]

theorem tidy_bind_takeCondition {f : String → Compiling (List Row)} (h : ∀ name, Tidy (f name)) :
    Tidy (takeCondition index >>= f) := by
  intro s out t hrun hs
  obtain ⟨name, u, htake, hrest⟩ := ok_of_run_bind hrun
  obtain ⟨hres, hnoted⟩ := ensures_takeCondition index s name u htake
  refine h name u out t hrest fun other hother => ?_
  rcases (hnoted other).mp hother with hold | rfl
  · exact hs other hold
  · exact hres

theorem tidy_bind {f : List Row → Compiling (List Row)} (hx : Tidy x)
    (hf : ∀ rows, (∀ row ∈ rows, row.names.Nodup) → Tidy (f rows)) : Tidy (x >>= f) := by
  intro s out t hrun hs
  obtain ⟨rows, u, hfirst, hrest⟩ := ok_of_run_bind hrun
  obtain ⟨hnd, hu⟩ := hx s rows u hfirst hs
  exact hf rows hnd u out t hrest hu

end Tidying

/-! ## Logical forms -/

section Forms

namespace Compiler

theorem nodup_emit (h : ∀ row ∈ rows, row.names.Nodup) : ∀ row ∈ k.emit rows, row.names.Nodup := by
  intro row hrow
  obtain ⟨r, hr, rfl⟩ := List.mem_map.mp hrow
  exact Row.nodup_names_tighten (h r hr) _

theorem refuse_ne_ok {α : Type} (reason : Reason) (c : Constraint) (x : α) : refuse reason c ≠ .ok x := by
  unfold refuse
  intro h
  cases hc : c.written with
  | error e =>
    rw [hc] at h
    cases h
  | ok text =>
    rw [hc] at h
    cases h

section Literals

variable {P : Row → Prop} {t u : Truth}
  (hone : ∀ name value, t = .literal name value ∨ u = .literal name value → ∀ v, P (literalRow name v))
  (htwo : ∀ x v y w, t = .literal x v → u = .literal y w →
    ∀ q q' cmp rhs, P (Row.of (Keyed.put [(x, q)] y q') cmp rhs none))
include hone htwo

/-- The rows of `or` over single binaries are rows over one of them, or over both. -/
theorem forall_of_literalOr (h : literalOr c t u = .ok rows) : ∀ row ∈ rows, P row := by
  unfold literalOr at h
  split at h
  · exact Except.ok.inj h ▸ List.forall_mem_nil _
  · exact Except.ok.inj h ▸ List.forall_mem_nil _
  · exact absurd h (refuse_ne_ok _ _ _)
  · exact Except.ok.inj h ▸ List.forall_mem_singleton.mpr (hone _ _ (Or.inr rfl) _)
  · exact Except.ok.inj h ▸ List.forall_mem_singleton.mpr (hone _ _ (Or.inl rfl) _)
  · split at h
    · obtain rfl := Except.ok.inj h
      split
      · exact List.forall_mem_singleton.mpr (hone _ _ (Or.inl rfl) _)
      · exact List.forall_mem_nil _
    · exact Except.ok.inj h ▸ List.forall_mem_singleton.mpr (htwo _ _ _ _ rfl rfl _ _ _ _)

/-- The rows of `xor` over single binaries are rows over one of them, or over both. -/
theorem forall_of_literalXor (h : literalXor c t u = .ok rows) : ∀ row ∈ rows, P row := by
  unfold literalXor at h
  split at h
  · exact absurd h (refuse_ne_ok _ _ _)
  · exact absurd h (refuse_ne_ok _ _ _)
  · exact Except.ok.inj h ▸ List.forall_mem_nil _
  · exact Except.ok.inj h ▸ List.forall_mem_nil _
  · exact Except.ok.inj h ▸ List.forall_mem_singleton.mpr (hone _ _ (Or.inr rfl) _)
  · exact Except.ok.inj h ▸ List.forall_mem_singleton.mpr (hone _ _ (Or.inl rfl) _)
  · exact Except.ok.inj h ▸ List.forall_mem_singleton.mpr (hone _ _ (Or.inr rfl) _)
  · exact Except.ok.inj h ▸ List.forall_mem_singleton.mpr (hone _ _ (Or.inl rfl) _)
  · split_ifs at h
    · exact absurd h (refuse_ne_ok _ _ _)
    · exact Except.ok.inj h ▸ List.forall_mem_nil _
    · exact Except.ok.inj h ▸ List.forall_mem_singleton.mpr (htwo _ _ _ _ rfl rfl _ _ _ _)
    · exact Except.ok.inj h ▸ List.forall_mem_singleton.mpr (htwo _ _ _ _ rfl rfl _ _ _ _)

end Literals

theorem nodup_names_pair (x y : String) (q q' : Rat) (cmp : Comparator) (rhs : Rat) :
    (Row.of (Keyed.put [(x, q)] y q') cmp rhs none).names.Nodup :=
  Row.nodup_names_of (Keyed.nodup_put (Terms.nodup_single x q) y q') _ _ _

theorem nodup_literalOr {x y : Truth} (h : literalOr c x y = .ok rows) : ∀ row ∈ rows, row.names.Nodup :=
  forall_of_literalOr (fun _ _ _ _ => nodup_names_literalRow _ _)
    (fun _ _ _ _ _ _ _ _ _ _ => nodup_names_pair _ _ _ _ _ _) h

theorem nodup_literalXor {x y : Truth} (h : literalXor c x y = .ok rows) : ∀ row ∈ rows, row.names.Nodup :=
  forall_of_literalXor (fun _ _ _ _ => nodup_names_literalRow _ _)
    (fun _ _ _ _ _ _ _ _ _ _ => nodup_names_pair _ _ _ _ _ _) h

theorem tidy_disjunction (ha : a.names.Nodup) (hb : b.names.Nodup) (index : Int) :
    Tidy (k.disjunction a b index) := by
  refine tidy_bind_takeCondition fun condition => tidy_pure fun row hrow => ?_
  rcases List.mem_append.mp hrow with hmem | hmem
  · obtain ⟨half, hhalf, rfl⟩ := List.mem_map.mp hmem
    exact Row.nodup_names_withCondition (Row.nodup_names_halves (Row.nodup_names_tighten ha _) half hhalf) _ _ _
  · obtain ⟨half, hhalf, rfl⟩ := List.mem_map.mp hmem
    exact Row.nodup_names_withCondition (Row.nodup_names_halves (Row.nodup_names_tighten hb _) half hhalf) _ _ _

theorem nodup_zeroConsequent {terms : Terms} (h : terms.names.Nodup) (name : String) (value : Bool) (m : Rat) :
    ∀ row ∈ zeroConsequent name value terms m, row.names.Nodup := by
  intro row hrow
  obtain ⟨sign, -, rfl⟩ := List.mem_map.mp hrow
  have hscaled := Terms.nodup_scale h sign
  split
  · exact Row.nodup_names_of (Keyed.nodup_put hscaled _ _) _ _ _
  · exact Row.nodup_names_of (Keyed.nodup_put hscaled _ _) _ _ _

theorem nodup_conditionalRows (ha : a.names.Nodup) (h : ∀ half ∈ halves, half.names.Nodup) (m : Rat)
    (condition : String) : ∀ row ∈ conditionalRows a halves m condition, row.names.Nodup := by
  intro row hrow
  rcases List.mem_append.mp hrow with hmem | hmem
  · obtain ⟨half, hhalf, rfl⟩ := List.mem_map.mp hmem
    exact Row.nodup_names_of (Keyed.nodup_put (Terms.nodup_scale (h half hhalf) _) _ _) _ _ _
  · rw [List.mem_singleton.mp hmem]
    exact Row.nodup_names_of (Keyed.nodup_put (Terms.nodup_scale ha _) _ _) _ _ _

theorem tidy_conditional (ha : a.names.Nodup) (hb : b.names.Nodup) (c : Constraint) (report : String)
    (index : Int) : Tidy (k.conditional a b c report index) := by
  have hhalves : ∀ half ∈ b.halves.map fun half => half.tighten k.integral, half.names.Nodup := by
    intro half hhalf
    obtain ⟨r, hr, rfl⟩ := List.mem_map.mp hhalf
    exact Row.nodup_names_tighten (Row.nodup_names_halves hb r hr) _
  unfold conditional
  dsimp only
  split
  · exact ensures_throw _
  · exact tidy_bind_takeCondition fun condition => tidy_pure (nodup_conditionalRows ha hhalves _ condition)

theorem tidy_implication (ha : a.names.Nodup) (hb : b.names.Nodup) (index : Int) :
    Tidy (k.implication a b index) := by
  apply ensures_bind_lift
  intro report _
  dsimp only
  split
  · apply ensures_bind_lift
    intro truth _
    cases truth with
    | always => exact tidy_pure (nodup_emit (List.forall_mem_singleton.mpr hb))
    | never => exact tidy_pure (List.forall_mem_nil _)
    | literal name value =>
      dsimp only
      split
      · exact tidy_pure (nodup_zeroConsequent hb _ _ _)
      · cases value
        · exact tidy_conditional (Row.nodup_names_of (Terms.nodup_single name _) _ _ _) hb _ _ _
        · exact tidy_conditional (Row.nodup_names_of (Terms.nodup_single name _) _ _ _) hb _ _ _
  · split
    · exact tidy_conditional ha hb _ _ _
    · split
      · rename_i strict hstrict
        exact tidy_conditional (Row.nodup_names_loosen? ha hstrict) hb _ _ _
      · exact ensures_throw _

theorem nodup_names_negated (h : r.names.Nodup) : r.negated.names.Nodup := Row.nodup_names_of h _ _ _

theorem tidy_equivalence (ha : a.names.Nodup) (hb : b.names.Nodup) (index : Int) :
    Tidy (k.equivalence a b index) := by
  apply tidy_bind (tidy_implication ha hb index)
  intro forth hforth
  apply tidy_bind (tidy_implication hb ha (index + 1))
  intro back hback
  exact tidy_pure (List.forall_mem_append.mpr ⟨hforth, hback⟩)

theorem tidy_junction (ha : a.names.Nodup) (hb : b.names.Nodup) (operator : Junction) (index : Int) :
    Tidy (k.junction operator a b index) := by
  have hpair : ∀ {p q : Row}, p.names.Nodup → q.names.Nodup → ∀ row ∈ [p, q], row.names.Nodup :=
    fun hp hq => List.forall_mem_cons.mpr ⟨hp, List.forall_mem_singleton.mpr hq⟩
  cases operator with
  | and => exact tidy_pure (nodup_emit (hpair ha hb))
  | nor => exact tidy_pure (nodup_emit (hpair (nodup_names_negated ha) (nodup_names_negated hb)))
  | or =>
    unfold junction
    dsimp only
    split
    · exact ensures_bind_lift fun x _ => ensures_bind_lift fun y _ => tidy_lift fun _ => nodup_literalOr
    · exact tidy_disjunction ha hb index
  | xor =>
    unfold junction
    dsimp only
    split
    · exact ensures_bind_lift fun x _ => ensures_bind_lift fun y _ => tidy_lift fun _ => nodup_literalXor
    · exact tidy_equivalence ha (nodup_names_negated hb) index

theorem tidy_compile (hc : c.Keyed) (index : Int) : Tidy (k.compile c index) := by
  cases c with
  | plain row => exact ensures_throw _
  | implies p q =>
    exact tidy_implication (hc p List.mem_cons_self) (hc q (by simp [Constraint.operands])) index
  | equivalent p q =>
    exact tidy_equivalence (hc p List.mem_cons_self) (hc q (by simp [Constraint.operands])) index
  | joined operator a b =>
    exact tidy_junction (hc a List.mem_cons_self) (hc b (by simp [Constraint.operands])) operator index

theorem tidy_compileAll {constraints : List Constraint} (h : ∀ c ∈ constraints, c.Keyed) (index : Int) :
    Tidy (k.compileAll index constraints) := by
  induction constraints generalizing index with
  | nil => exact tidy_pure (List.forall_mem_nil _)
  | cons c rest ih =>
    have hrest := fun index => ih (fun d hd => h d (List.mem_cons_of_mem _ hd)) index
    have hc := h c List.mem_cons_self
    have hlogical : Tidy (do
        let rows ← k.compile c index
        let _ ← (c.written : Except Fault String)
        return rows ++ (← k.compileAll (index + 2) rest)) := by
      refine tidy_bind (tidy_compile hc index) fun rows hrows => ensures_bind_lift fun _ _ => ?_
      apply tidy_bind (hrest (index + 2))
      intro others hothers
      exact tidy_pure (List.forall_mem_append.mpr ⟨hrows, hothers⟩)
    cases c with
    | plain row => exact hrest index
    | implies p q => exact hlogical
    | equivalent p q => exact hlogical
    | joined operator a b => exact hlogical

end Compiler

end Forms

/-! ## The standard form -/

section Standard

theorem Constraint.Keyed.mapRows_split (hc : c.Keyed) (split : List String) :
    (c.mapRows fun r => r.split split).Keyed := by
  have hrow := fun (r : Row) (hr : r ∈ c.operands) => Row.nodup_names_split (hc r hr) split
  cases c <;> simpa [Constraint.Keyed, Constraint.mapRows, Constraint.operands] using hrow

theorem mem_plainRows {constraints : List Constraint} : r ∈ plainRows constraints ↔ .plain r ∈ constraints := by
  unfold plainRows
  rw [List.mem_filterMap]
  constructor
  · rintro ⟨c, hc, heq⟩
    cases c with
    | plain row => exact Option.some.inj heq ▸ hc
    | implies p q => cases heq
    | equivalent p q => cases heq
    | joined operator a b => cases heq
  · exact fun hr => ⟨_, hr, rfl⟩

theorem nodup_plainRows {constraints : List Constraint} (h : ∀ c ∈ constraints, c.Keyed) :
    ∀ row ∈ plainRows constraints, row.names.Nodup :=
  fun row hrow => h _ (mem_plainRows.mp hrow) row List.mem_cons_self

/-- Where no reserved name is found, none is declared or used. -/
theorem not_reserved_of_isEmpty {constraints : List Constraint} {declared : List String}
    (h : (reservedNames constraints declared).isEmpty = true) {name : String}
    (hname : name ∈ declared ++ constraints.flatMap fun c => c.operands.flatMap Row.names) : ¬Reserved name := by
  intro hres
  have hmem : name ∈ reservedNames constraints declared := by
    unfold reservedNames
    rw [List.mem_mergeSort, mem_firstOccurrences, List.mem_filter]
    exact ⟨hname, hres⟩
  rw [List.isEmpty_iff.mp h] at hmem
  exact absurd hmem List.not_mem_nil

variable {form : StandardForm} {constraints : List Constraint} {derived : List Row}
  {binary integer unrestricted : List String} {splitting : Bool}

/-- The constraints over the parts of the variables that are split. -/
def splitConstraints (constraints : List Constraint) (split : List String) : List Constraint :=
  constraints.map fun c => c.mapRows fun r => r.split split

/-- The plain rows of a standard form. -/
def tightenedRows (constraints : List Constraint) (binary integer split : List String) : List Row :=
  (plainRows (splitConstraints constraints split)).map fun r => r.tighten (integralNames binary integer split)

/-- A standard form and the rows that were derived from its logical forms. -/
structure StandardForm.MadeOf (form : StandardForm) (constraints : List Constraint)
    (binary integer unrestricted : List String) (splitting : Bool) (derived : List Row) : Prop where
  none_reserved : (reservedNames constraints (binary ++ integer ++ unrestricted)).isEmpty = true
  split_eq : form.split = if splitting then unrestricted.filter fun name => !binary.contains name else []
  rows_eq : form.rows = tightenedRows constraints binary integer form.split ++ derived
  run_eq : (Compiler.compileAll
      ⟨tightenedRows constraints binary integer form.split, binary, integralNames binary integer form.split⟩ 0
      (splitConstraints constraints form.split)).run [] = (.ok derived, form.condition)

theorem exists_madeOf (h : standardize constraints binary integer unrestricted splitting = .ok form) :
    ∃ derived, form.MadeOf constraints binary integer unrestricted splitting derived := by
  unfold standardize at h
  dsimp only at h
  split at h
  · cases h
  rename_i hempty
  rw [Bool.not_eq_true, Bool.not_eq_false'] at hempty
  split at h
  rename_i derived condition hrun
  cases derived with
  | error fault => cases h
  | ok derived =>
    obtain rfl := Except.ok.inj h
    exact ⟨derived, hempty, rfl, rfl, hrun⟩

theorem StandardForm.MadeOf.mem_of_split (h : form.MadeOf constraints binary integer unrestricted splitting derived)
    {x : String} (hx : x ∈ form.split) : x ∈ unrestricted ∧ x ∉ binary := by
  rw [h.split_eq] at hx
  split at hx
  · obtain ⟨hdeclared, hnot⟩ := List.mem_filter.mp hx
    exact ⟨hdeclared, by simpa using hnot⟩
  · exact absurd hx List.not_mem_nil

/-- The rows of a standard form hold each name once, and its conditions have reserved names. -/
theorem StandardForm.MadeOf.tidy (h : form.MadeOf constraints binary integer unrestricted splitting derived)
    (hkeyed : ∀ c ∈ constraints, c.Keyed) :
    (∀ row ∈ form.rows, row.names.Nodup) ∧ ∀ name ∈ form.condition, Reserved name := by
  have hparts : ∀ c ∈ splitConstraints constraints form.split, c.Keyed :=
    List.forall_mem_map.mpr fun c hc => (hkeyed c hc).mapRows_split form.split
  obtain ⟨hderived, hcondition⟩ :=
    Compiler.tidy_compileAll hparts 0 _ _ _ h.run_eq fun name hname => absurd hname List.not_mem_nil
  refine ⟨?_, hcondition⟩
  rw [h.rows_eq]
  refine List.forall_mem_append.mpr ⟨?_, hderived⟩
  exact List.forall_mem_map.mpr fun r hr => Row.nodup_names_tighten (nodup_plainRows hparts r hr) _

/-- The rows of a standard form hold each name once, and no binary is split. -/
theorem standardForm_spec {p : Problem} (hp : p.Keyed) (h : p.standardForm true = .ok form) :
    (∀ row ∈ form.rows, row.names.Nodup) ∧ ∀ name ∈ p.binary ++ form.condition, name ∉ form.split := by
  obtain ⟨derived, hmade⟩ := exists_madeOf h
  obtain ⟨hrows, hcondition⟩ := hmade.tidy hp.constraints
  refine ⟨hrows, fun name hname hsplit => ?_⟩
  obtain ⟨hdeclared, hbinary⟩ := hmade.mem_of_split hsplit
  rcases List.mem_append.mp hname with hbin | hcond
  · exact hbinary hbin
  · exact not_reserved_of_isEmpty hmade.none_reserved
      (List.mem_append_left _ (List.mem_append_right _ hdeclared)) (hcondition name hcond)

end Standard

end ExactLP
