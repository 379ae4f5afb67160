import ExactLP.Proofs.Standard.BigM
import ExactLP.Proofs.Standard.Conditions

/-!
# Proofs.Standard.Owned — no two logical forms share a condition

A form takes conditions with its own indices only, and its rows hold the conditions that it takes and no other
reserved name.  The indices of the forms of a list are apart, and so are those of the two implications of an
equivalence.

* `Marked`: the reserved names in some rows.
* `Takes`: the conditions that a computation takes are the ones in its rows; `takes_implication`,
  `takes_equivalence`, `takes_compile`: the logical forms.
* `Compiler.Generation`, `Compiler.generatesFrom_compileAll`: the rows of the forms of a list.
* `standardize_unshared`: the standard form.
-/

namespace ExactLP

variable {r a b p q strict : Row} {rows rows' forth back halves : List Row} {terms : Terms} {integral : List String}
  {k : Compiler} {c : Constraint} {constraints : List Constraint} {index : Int} {indices own own' : List Int}
  {name condition : String} {m : Rat} {taken taken' : List String}

/-! ## Definitions -/

section Defs

/-- A reserved name with a coefficient in one of the rows. -/
def Marked (rows : List Row) (name : String) : Prop := Reserved name ∧ ∃ row ∈ rows, name ∈ row.names

/-- No reserved name is in rows of both lists. -/
def Unshared (rows rows' : List Row) : Prop := ∀ name, Marked rows name → ¬Marked rows' name

/-- The row holds no reserved name. -/
def Row.Unreserved (r : Row) : Prop := ∀ name ∈ r.names, ¬Reserved name

/-- The constraint is no plain row. -/
def Constraint.isLogical : Constraint → Bool
  | .plain _ => false
  | _ => true

/-- Some run of the computation returns the rows. -/
def Returns (x : Compiling (List Row)) (rows : List Row) : Prop :=
  ∃ taken taken', x.run taken = (.ok rows, taken')

/-- The rows that a logical form is compiled to at some index.  Where it is compiled as an equivalence, the rows of its
two implications share no condition. -/
def Compiler.Generated (k : Compiler) (c : Constraint) (rows : List Row) : Prop :=
  ∃ index, Returns (k.compile c index) rows ∧ ∀ p q, k.equivalents? c = some (p, q) →
    ∃ forth back, rows = forth ++ back ∧ Returns (k.implication p q index) forth ∧
      Returns (k.implication q p (index + 1)) back ∧ Unshared forth back

end Defs

/-! ## Reserved names in rows -/

section Marks

theorem conditionName_injective : Function.Injective conditionName :=
  fun _ _ h => toString_int_injective ((String.append_right_inj conditionStem).mp h)

theorem conditionName_mem_map {i : Int} : conditionName i ∈ own.map conditionName ↔ i ∈ own :=
  List.mem_map_of_injective conditionName_injective

theorem marked_append : Marked (rows ++ rows') name ↔ Marked rows name ∨ Marked rows' name := by
  unfold Marked
  simp only [List.mem_append, or_and_right, exists_or, and_or_left]

theorem Marked.flatten {generated : List (List Row)} (h : Marked rows name) (hrows : rows ∈ generated) :
    Marked generated.flatten name := by
  obtain ⟨hres, row, hrow, hname⟩ := h
  exact ⟨hres, row, List.mem_flatten_of_mem hrows hrow, hname⟩

theorem not_marked (h : ∀ row ∈ rows, row.Unreserved) (name : String) : ¬Marked rows name := by
  rintro ⟨hres, row, hrow, hname⟩
  exact h row hrow name hname hres

/-- Rows in which a condition is the only reserved name. -/
theorem marked_iff_of_condition (hres : Reserved condition) (hrow : r ∈ rows) (hmem : condition ∈ r.names)
    (honly : ∀ row ∈ rows, ∀ name ∈ row.names, Reserved name → name = condition) :
    Marked rows name ↔ name = condition := by
  constructor
  · rintro ⟨hres, row, hrow, hname⟩
    exact honly row hrow name hname hres
  · rintro rfl
    exact ⟨hres, r, hrow, hmem⟩

end Marks

/-! ## Rewritten operands -/

section Operands

namespace Row

theorem unreserved_of (h : ∀ name ∈ terms.names, ¬Reserved name) (cmp : Comparator) (rhs : Rat)
    (label : Option String) : (of terms cmp rhs label).Unreserved :=
  fun name hname => h name ((Terms.names_nonzero_sublist _).subset hname)

theorem Unreserved.tighten (h : r.Unreserved) (integral : List String) : (r.tighten integral).Unreserved :=
  fun name hname => h name (mem_names_of_tighten hname)

theorem Unreserved.half {half : Row} (h : r.Unreserved) (hhalf : half ∈ r.halves) : half.Unreserved :=
  fun name hname => h name (mem_names_of_half hhalf hname)

theorem Unreserved.negated (h : r.Unreserved) : r.negated.Unreserved := unreserved_of h _ _ _

theorem Unreserved.loosen? (h : r.Unreserved) (hs : r.loosen? integral = some strict) : strict.Unreserved :=
  fun name hname => h name ((loosen?_spec (z := fun _ => 0) hs).2.2 name hname)

theorem exists_half (r : Row) : ∃ half, half ∈ r.halves := by
  unfold halves
  split
  · exact ⟨_, List.mem_cons_self⟩
  · exact ⟨_, List.mem_cons_self⟩

/-- A condition with a coefficient is in its row. -/
theorem mem_names_of_put {c : Rat} (hc : c ≠ 0) (terms : Terms) (condition : String) (cmp : Comparator) (rhs : Rat)
    (label : Option String) : condition ∈ (of (terms.put condition c) cmp rhs label).names := by
  refine List.mem_map.mpr ⟨(condition, c), List.mem_filter.mpr ⟨Keyed.mem_put_self _ _ _, ?_⟩, rfl⟩
  exact bne_iff_ne.mpr hc

/-- A condition is the only reserved name in its row. -/
theorem eq_of_reserved_of_put {c : Rat} {cmp : Comparator} {rhs : Rat} {label : Option String}
    (h : ∀ name ∈ terms.names, ¬Reserved name) (hname : name ∈ (of (terms.put condition c) cmp rhs label).names)
    (hres : Reserved name) : name = condition :=
  (Keyed.mem_names_put.mp ((Terms.names_nonzero_sublist _).subset hname)).resolve_left fun hold => h name hold hres

end Row

theorem unreserved_single (h : ¬Reserved name) (q : Rat) : ∀ other ∈ Keyed.names [(name, q)], ¬Reserved other :=
  fun _ hother => List.mem_singleton.mp hother ▸ h

theorem unreserved_literalRow (h : ¬Reserved name) (value : Bool) : (literalRow name value).Unreserved :=
  Row.unreserved_of (unreserved_single h 1) _ _ _

theorem unreserved_strictLiteral (h : ¬Reserved name) (value : Bool) :
    (Compiler.strictLiteral name value).Unreserved := by
  cases value
  · exact Row.unreserved_of (unreserved_single h 1) _ _ _
  · exact Row.unreserved_of (unreserved_single h 1) _ _ _

/-- The variable of a literal is that of its row. -/
theorem not_reserved_of_truth {value : Bool} (hr : r.Unreserved) (hk : k.isLiteral r = true)
    (h : r.truth = .ok (.literal name value)) : ¬Reserved name :=
  hr name ((truth_spec (z := fun _ => 0) hk (fun _ _ => Or.inl rfl) h).2.2 name value rfl)

end Operands

/-! ## Computations that take conditions -/

section Taking

/-- Where the conditions with some indices are new, the computation takes some of them, each once, and these are the
reserved names in its rows. -/
def Takes (indices : List Int) (x : Compiling (List Row)) : Prop :=
  Ensures x fun taken rows taken' => (∀ i ∈ indices, conditionName i ∉ taken) →
    ∃ own : List Int, own.Sublist indices ∧ taken' = taken ++ own.map conditionName ∧
      ∀ name, Marked rows name ↔ name ∈ own.map conditionName

variable {x : Compiling (List Row)} {e : Except Fault (List Row)}

theorem Takes.mono (h : Takes indices x) {more : List Int} (hsub : indices.Sublist more) : Takes more x := by
  intro taken rows taken' hrun hnew
  obtain ⟨own, hown, hrest⟩ := h taken rows taken' hrun fun i hi => hnew i (hsub.subset hi)
  exact ⟨own, hown.trans hsub, hrest⟩

/-- Rows without reserved names, for which no condition is taken. -/
theorem takes_pure (h : ∀ row ∈ rows, row.Unreserved) (indices : List Int) : Takes indices (pure rows) :=
  ensures_pure fun taken _ =>
    ⟨[], List.nil_sublist _, (List.append_nil taken).symm, fun name => iff_of_false (not_marked h name) (by simp)⟩

theorem takes_lift (h : ∀ rows, e = .ok rows → ∀ row ∈ rows, row.Unreserved) (indices : List Int) :
    Takes indices (liftM e) := by
  intro taken rows taken' hrun
  obtain ⟨hrows, rfl⟩ := Prod.mk.inj hrun
  exact takes_pure (h rows hrows) indices _ _ _ rfl

/-- A condition that is taken is in the rows that are made with it. -/
theorem takes_takeCondition {g : String → List Row}
    (h : ∀ name, Marked (g (conditionName index)) name ↔ name = conditionName index) :
    Takes [index] (takeCondition index >>= fun condition => pure (g condition)) := by
  intro taken rows taken' hrun hnew
  obtain ⟨hrows, rfl⟩ := Prod.mk.inj hrun
  obtain rfl := Except.ok.inj hrows
  refine ⟨[index], List.Sublist.refl _, if_neg fun hold => ?_, fun name => ?_⟩
  · exact hnew index (List.mem_singleton_self _) (List.contains_iff_mem.mp hold)
  · rw [List.map_singleton, List.mem_singleton]
    exact h name

/-- Rows whose conditions have different indices share none. -/
theorem unshared_of_disjoint (h : ∀ name, Marked rows name → name ∈ own.map conditionName)
    (h' : ∀ name, Marked rows' name → name ∈ own'.map conditionName) (hdis : ∀ i ∈ own, i ∉ own') :
    Unshared rows rows' := by
  intro name hname hname'
  obtain ⟨i, hi, rfl⟩ := List.mem_map.mp (h name hname)
  exact hdis i hi (conditionName_mem_map.mp (h' _ hname'))

end Taking

/-! ## Logical forms -/

section Forms

namespace Compiler

theorem unreserved_emit (h : ∀ row ∈ rows, row.Unreserved) : ∀ row ∈ k.emit rows, row.Unreserved := by
  intro row hrow
  obtain ⟨r, hr, rfl⟩ := List.mem_map.mp hrow
  exact (h r hr).tighten _

theorem unreserved_zeroConsequent (hname : ¬Reserved name) (h : ∀ other ∈ terms.names, ¬Reserved other)
    (value : Bool) (m : Rat) : ∀ row ∈ zeroConsequent name value terms m, row.Unreserved := by
  intro row hrow
  obtain ⟨sign, -, rfl⟩ := List.mem_map.mp hrow
  have hput : ∀ q, ∀ other ∈ ((terms.scale sign).put name q).names, ¬Reserved other := by
    intro q other hother
    rcases Keyed.mem_names_put.mp hother with hold | rfl
    · exact h other (by rwa [Terms.names_scale] at hold)
    · exact hname
  split
  · exact Row.unreserved_of (hput _) _ _ _
  · exact Row.unreserved_of (hput _) _ _ _

/-- A row over two variables that are not reserved. -/
theorem unreserved_pair {x y : String} (hx : ¬Reserved x) (hy : ¬Reserved y) (v w : Rat) (cmp : Comparator)
    (rhs : Rat) : (Row.of (Keyed.put [(x, v)] y w) cmp rhs none).Unreserved := by
  refine Row.unreserved_of (fun other hother => ?_) _ _ _
  rcases Keyed.mem_names_put.mp hother with hold | rfl
  · exact unreserved_single hx v other hold
  · exact hy

/-- The rows of a disjunction. -/
theorem takes_disjunction (ha : a.Unreserved) (hb : b.Unreserved) (index : Int) :
    Takes [index] (k.disjunction a b index) := by
  refine takes_takeCondition fun name => ?_
  have hm := (bigM_pos [a, b] k.others).ne'
  have hsign : ∀ cmp : Comparator, cmp.slackSign ≠ 0 := by
    intro cmp
    cases cmp <;> norm_num [Comparator.slackSign]
  obtain ⟨half, hhalf⟩ := (a.tighten k.integral).exists_half
  refine marked_iff_of_condition (reserved_condition index)
    (List.mem_append_left _ (List.mem_map_of_mem hhalf))
    (Row.mem_names_of_put (mul_ne_zero hm (hsign half.cmp)) _ _ _ _ _) fun row hrow name hname hres => ?_
  rcases List.mem_append.mp hrow with hfirst | hsecond
  · obtain ⟨half, hhalf, rfl⟩ := List.mem_map.mp hfirst
    exact Row.eq_of_reserved_of_put ((ha.tighten _).half hhalf) hname hres
  · obtain ⟨half, hhalf, rfl⟩ := List.mem_map.mp hsecond
    exact Row.eq_of_reserved_of_put ((hb.tighten _).half hhalf) hname hres

theorem takes_conditional (ha : a.Unreserved) (hb : b.Unreserved) (c : Constraint) (report : String) (index : Int) :
    Takes [index] (k.conditional a b c report index) := by
  unfold conditional
  dsimp only
  split
  · exact ensures_throw _
  refine takes_takeCondition fun name => ?_
  have hm := (bigM_pos [a, b] k.others).ne'
  have hscale : ∀ {terms : Terms} (q : Rat), (∀ name ∈ terms.names, ¬Reserved name) →
      ∀ name ∈ (terms.scale q).names, ¬Reserved name :=
    fun q h => by rwa [Terms.names_scale]
  refine marked_iff_of_condition (reserved_condition index)
    (List.mem_append_right _ (List.mem_singleton_self _)) (Row.mem_names_of_put hm _ _ _ _ _)
    fun row hrow name hname hres => ?_
  rcases List.mem_append.mp hrow with henforce | hlast
  · obtain ⟨half, hhalf, rfl⟩ := List.mem_map.mp henforce
    obtain ⟨half', hhalf', rfl⟩ := List.mem_map.mp hhalf
    exact Row.eq_of_reserved_of_put (hscale _ ((hb.half hhalf').tighten _)) hname hres
  · obtain rfl := List.mem_singleton.mp hlast
    exact Row.eq_of_reserved_of_put (hscale _ ha) hname hres

theorem takes_implication (ha : a.Unreserved) (hb : b.Unreserved) (index : Int) :
    Takes [index] (k.implication a b index) := by
  apply ensures_bind_lift
  intro report _
  dsimp only
  split
  · rename_i hliteral
    apply ensures_bind_lift
    intro truth htruth
    cases truth with
    | always => exact takes_pure (unreserved_emit (List.forall_mem_singleton.mpr hb)) _
    | never => exact takes_pure (List.forall_mem_nil _) _
    | literal name value =>
      have hname := not_reserved_of_truth ha hliteral htruth
      dsimp only
      split
      · exact takes_pure (unreserved_zeroConsequent hname hb _ _) _
      · exact takes_conditional (unreserved_strictLiteral hname value) hb _ _ _
  · split
    · exact takes_conditional ha hb _ _ _
    · split
      · rename_i strict hloose
        exact takes_conditional (ha.loosen? hloose) hb _ _ _
      · exact ensures_throw _

/-- An equivalence that goes through is two implications, one after the other. -/
theorem equivalence_run (h : (k.equivalence p q index).run taken = (.ok rows, taken')) :
    ∃ forth back u, rows = forth ++ back ∧ (k.implication p q index).run taken = (.ok forth, u) ∧
      (k.implication q p (index + 1)).run u = (.ok back, taken') := by
  obtain ⟨forth, u, hforth, hrest⟩ := ok_of_run_bind h
  obtain ⟨back, u', hback, hpure⟩ := ok_of_run_bind hrest
  obtain ⟨hrows, rfl⟩ := Prod.mk.inj hpure
  exact ⟨forth, back, u, (Except.ok.inj hrows).symm, hforth, hback⟩

/-- The implications of an equivalence take conditions with different indices. -/
theorem takes_equivalence (hp : p.Unreserved) (hq : q.Unreserved) (index : Int) :
    Ensures (k.equivalence p q index) fun taken rows taken' =>
      (∀ i ∈ [index, index + 1], conditionName i ∉ taken) → ∃ own : List Int, own.Sublist [index, index + 1] ∧
        taken' = taken ++ own.map conditionName ∧ (∀ name, Marked rows name ↔ name ∈ own.map conditionName) ∧
        ∃ forth back, rows = forth ++ back ∧ Returns (k.implication p q index) forth ∧
          Returns (k.implication q p (index + 1)) back ∧ Unshared forth back := by
  intro taken rows taken' hrun hnew
  obtain ⟨forth, back, u, rfl, hforth, hback⟩ := equivalence_run hrun
  obtain ⟨own, hown, rfl, hmarks⟩ := takes_implication hp hq index taken forth u hforth fun i hi =>
    hnew i (List.mem_cons.mpr (Or.inl (List.mem_singleton.mp hi)))
  have hfirst : ∀ i ∈ own, i = index := fun i hi => List.mem_singleton.mp (hown.subset hi)
  obtain ⟨own', hown', rfl, hmarks'⟩ := takes_implication hq hp (index + 1) _ back taken' hback fun i hi => by
    obtain rfl := List.mem_singleton.mp hi
    rw [List.mem_append, conditionName_mem_map, not_or]
    refine ⟨hnew _ (by simp), fun hmem => ?_⟩
    have := hfirst _ hmem
    omega
  refine ⟨own ++ own', hown.append hown', by rw [List.map_append, List.append_assoc], fun name => ?_, forth, back, rfl,
    ⟨taken, _, hforth⟩, ⟨_, _, hback⟩, ?_⟩
  · rw [marked_append, hmarks, hmarks', List.map_append, List.mem_append]
  · refine unshared_of_disjoint (fun name => (hmarks name).mp) (fun name => (hmarks' name).mp) fun i hi hi' => ?_
    have := hfirst i hi
    have := List.mem_singleton.mp (hown'.subset hi')
    omega

/-- A junction that is not compiled as an equivalence. -/
theorem takes_junction (ha : a.Unreserved) (hb : b.Unreserved) {operator : Junction}
    (h : operator = .xor → (k.isLiteral a && k.isLiteral b) = true) (index : Int) :
    Takes [index] (k.junction operator a b index) := by
  have hpair : ∀ {p q : Row}, p.Unreserved → q.Unreserved → ∀ row ∈ [p, q], row.Unreserved :=
    fun hp hq => List.forall_mem_cons.mpr ⟨hp, List.forall_mem_singleton.mpr hq⟩
  -- the rows of a truth table are over the variables of the operands
  have hone : ∀ {t u}, (k.isLiteral a && k.isLiteral b) = true → a.truth = .ok t → b.truth = .ok u →
      ∀ name value, t = .literal name value ∨ u = .literal name value → ¬Reserved name := by
    rintro t u hliteral ht hu name value (rfl | rfl)
    · exact not_reserved_of_truth ha (Bool.and_eq_true_iff.mp hliteral).1 ht
    · exact not_reserved_of_truth hb (Bool.and_eq_true_iff.mp hliteral).2 hu
  unfold junction
  cases operator with
  | and => exact takes_pure (unreserved_emit (hpair ha hb)) _
  | nor => exact takes_pure (unreserved_emit (hpair ha.negated hb.negated)) _
  | or =>
    dsimp only
    split
    · rename_i hliteral
      refine ensures_bind_lift fun t ht => ensures_bind_lift fun u hu => takes_lift (fun rows => ?_) _
      have hfree := hone hliteral ht hu
      exact forall_of_literalOr (fun name value heq v => unreserved_literalRow (hfree name value heq) v)
        fun x v y w hx hy => unreserved_pair (hfree x v (Or.inl hx)) (hfree y w (Or.inr hy))
    · exact takes_disjunction ha hb index
  | xor =>
    dsimp only
    rw [if_pos (h rfl)]
    refine ensures_bind_lift fun t ht => ensures_bind_lift fun u hu => takes_lift (fun rows => ?_) _
    have hfree := hone (h rfl) ht hu
    exact forall_of_literalXor (fun name value heq v => unreserved_literalRow (hfree name value heq) v)
      fun x v y w hx hy => unreserved_pair (hfree x v (Or.inl hx)) (hfree y w (Or.inr hy))

/-- A form that is compiled as an equivalence, and the rows of the equivalence. -/
theorem equivalents?_spec (hc : c.Unreserved) (h : k.equivalents? c = some (p, q)) :
    p.Unreserved ∧ q.Unreserved ∧ ∀ index, k.compile c index = k.equivalence p q index := by
  cases c with
  | plain row => cases h
  | implies p q => cases h
  | equivalent p q =>
    cases h
    exact ⟨hc p List.mem_cons_self, hc q (by simp [Constraint.operands]), fun _ => rfl⟩
  | joined operator a b =>
    cases operator with
    | and => cases h
    | or => cases h
    | nor => cases h
    | xor =>
      simp only [equivalents?] at h
      split at h
      · cases h
      · rename_i hliteral
        obtain ⟨rfl, rfl⟩ := Prod.mk.inj (Option.some.inj h)
        refine ⟨hc a List.mem_cons_self, Row.Unreserved.negated (hc b (by simp [Constraint.operands])), fun index => ?_⟩
        unfold compile junction
        dsimp only
        rw [if_neg hliteral]

/-- A form that is not compiled as an equivalence takes no condition but that of its index. -/
theorem takes_compile_of_none (hc : c.Unreserved) (h : k.equivalents? c = none) (index : Int) :
    Takes [index] (k.compile c index) := by
  cases c with
  | plain row => exact ensures_throw _
  | implies p q => exact takes_implication (hc p List.mem_cons_self) (hc q (by simp [Constraint.operands])) index
  | equivalent p q => cases h
  | joined operator a b =>
    refine takes_junction (hc a List.mem_cons_self) (hc b (by simp [Constraint.operands])) ?_ index
    rintro rfl
    simp only [equivalents?] at h
    split at h
    · rename_i hliteral
      exact hliteral
    · cases h

end Compiler

end Forms

/-! ## All forms -/

section All

namespace Compiler

/-- A logical form takes conditions with its index and the one after it. -/
theorem generated_of_compile (hc : c.Unreserved) (index : Int) :
    Ensures (k.compile c index) fun taken rows taken' =>
      (∀ i ∈ [index, index + 1], conditionName i ∉ taken) → ∃ own : List Int, own.Sublist [index, index + 1] ∧
        taken' = taken ++ own.map conditionName ∧ (∀ name, Marked rows name ↔ name ∈ own.map conditionName) ∧
        k.Generated c rows := by
  intro taken rows taken' hrun hnew
  cases hequivalents : k.equivalents? c with
  | none =>
    obtain ⟨own, hown, htaken, hmarks⟩ :=
      (takes_compile_of_none hc hequivalents index).mono (List.sublist_append_left [index] [index + 1])
        taken rows taken' hrun hnew
    refine ⟨own, hown, htaken, hmarks, index, ⟨taken, taken', hrun⟩, fun p q hsome => ?_⟩
    rw [hequivalents] at hsome
    cases hsome
  | some pair =>
    obtain ⟨p, q⟩ := pair
    obtain ⟨hp, hq, heq⟩ := equivalents?_spec hc hequivalents
    obtain ⟨own, hown, htaken, hmarks, forth, back, hrows⟩ :=
      takes_equivalence hp hq index taken rows taken' (heq index ▸ hrun) hnew
    refine ⟨own, hown, htaken, hmarks, index, ⟨taken, taken', hrun⟩, fun p' q' hsome => ?_⟩
    obtain ⟨rfl, rfl⟩ := Prod.mk.inj (Option.some.inj (hequivalents.symm.trans hsome))
    exact ⟨forth, back, hrows⟩

/-- The rows of some logical forms, from an index on, and the indices of the conditions in them. -/
structure Generation (k : Compiler) (forms : List Constraint) (index : Int) (own : List Int)
    (generated : List (List Row)) : Prop where
  each : List.Forall₂ k.Generated forms generated
  unshared : generated.Pairwise Unshared
  nodup : own.Nodup
  le_of_mem : ∀ i ∈ own, index ≤ i
  marked_iff : ∀ name, Marked generated.flatten name ↔ name ∈ own.map conditionName

theorem Generation.nil (k : Compiler) (index : Int) : k.Generation [] index [] [] :=
  ⟨.nil, .nil, List.nodup_nil, by simp, fun name => iff_of_false (not_marked (List.forall_mem_nil _) name) (by simp)⟩

/-- One more form in front, which takes conditions with its two indices. -/
theorem Generation.cons {forms : List Constraint} {generated : List (List Row)}
    (h : k.Generation forms (index + 2) own' generated) (hc : k.Generated c rows)
    (hown : own.Sublist [index, index + 1]) (hmarks : ∀ name, Marked rows name ↔ name ∈ own.map conditionName) :
    k.Generation (c :: forms) index (own ++ own') (rows :: generated) := by
  have hbounds : ∀ i ∈ own, index ≤ i ∧ i < index + 2 := fun i hi => by
    have hi := hown.subset hi
    simp only [List.mem_cons, List.not_mem_nil, or_false] at hi
    omega
  have hdisjoint : ∀ i ∈ own, i ∉ own' := fun i hi hi' => by
    have := hbounds i hi
    have := h.le_of_mem i hi'
    omega
  refine ⟨.cons hc h.each, h.unshared.cons fun others hothers => ?_, ?_, fun i hi => ?_, fun name => ?_⟩
  · refine unshared_of_disjoint (fun name => (hmarks name).mp) (fun name hname => ?_) hdisjoint
    exact (h.marked_iff name).mp (hname.flatten hothers)
  · exact List.Nodup.append (List.Nodup.sublist hown (by simp)) h.nodup fun i hi hi' => hdisjoint i hi hi'
  · rcases List.mem_append.mp hi with hi | hi
    · exact (hbounds i hi).1
    · have := h.le_of_mem i hi
      omega
  · rw [List.flatten_cons, marked_append, hmarks, h.marked_iff, List.map_append, List.mem_append]

/-- The computation compiles some logical forms, with new conditions from an index on. -/
def GeneratesFrom (k : Compiler) (forms : List Constraint) (index : Int) (x : Compiling (List Row)) : Prop :=
  Ensures x fun taken rows taken' => (∀ i, index ≤ i → conditionName i ∉ taken) →
    ∃ own generated, rows = generated.flatten ∧ taken' = taken ++ own.map conditionName ∧
      k.Generation forms index own generated

/-- All logical forms among some constraints. -/
theorem generatesFrom_compileAll (hc : ∀ c ∈ constraints, c.Unreserved) (index : Int) :
    k.GeneratesFrom (constraints.filter Constraint.isLogical) index (k.compileAll index constraints) := by
  induction constraints generalizing index with
  | nil => exact ensures_pure fun taken _ => ⟨[], [], rfl, (List.append_nil taken).symm, .nil k index⟩
  | cons c rest ih =>
    obtain ⟨hc, hrest⟩ := List.forall_mem_cons.mp hc
    have hlogical : k.GeneratesFrom (c :: rest.filter Constraint.isLogical) index (do
        let rows ← k.compile c index
        let _ ← (c.written : Except Fault String)
        return rows ++ (← k.compileAll (index + 2) rest)) := by
      intro taken rows taken' hrun hnew
      obtain ⟨first, u, hfirst, hrun⟩ := ok_of_run_bind hrun
      obtain ⟨text, u', hwritten, hrun⟩ := ok_of_run_bind hrun
      obtain ⟨-, rfl⟩ := Prod.mk.inj hwritten
      obtain ⟨others, u', hothers, hpure⟩ := ok_of_run_bind hrun
      obtain ⟨hrows, rfl⟩ := Prod.mk.inj hpure
      obtain rfl := Except.ok.inj hrows
      obtain ⟨own, hown, rfl, hmarks, hgenerated⟩ := generated_of_compile hc index taken first u hfirst fun i hi =>
        hnew i (by simp only [List.mem_cons, List.not_mem_nil, or_false] at hi; omega)
      -- the conditions of the form have smaller indices than those that come later
      obtain ⟨own', generated, rfl, rfl, hall⟩ := ih hrest (index + 2) _ others u' hothers fun i hi => by
        rw [List.mem_append, conditionName_mem_map, not_or]
        refine ⟨hnew i (by omega), fun hmem => ?_⟩
        have := hown.subset hmem
        simp only [List.mem_cons, List.not_mem_nil, or_false] at this
        omega
      exact ⟨own ++ own', first :: generated, rfl, by rw [List.map_append, List.append_assoc],
        hall.cons hgenerated hown hmarks⟩
    cases c with
    | plain row => exact ih hrest index
    | implies p q => exact hlogical
    | equivalent p q => exact hlogical
    | joined operator a b => exact hlogical

end Compiler

end All

/-! ## The standard form -/

section Standard

variable {form : StandardForm} {binary integer unrestricted : List String} {splitting : Bool}

/-- What the logical forms of a problem are compiled against. -/
def compilerOf (constraints : List Constraint) (binary integer split : List String) : Compiler :=
  ⟨tightenedRows constraints binary integer split, binary, integralNames binary integer split⟩

/-- No condition is in the rows of two logical forms, or in those of both implications of an equivalence.  The
conditions of a standard form are listed once each, and are the reserved names in its rows. -/
theorem standardize_unshared (h : standardize constraints binary integer unrestricted splitting = .ok form) :
    ∃ generated : List (List Row),
      form.rows = tightenedRows constraints binary integer form.split ++ generated.flatten ∧
      List.Forall₂ (compilerOf constraints binary integer form.split).Generated
        ((splitConstraints constraints form.split).filter Constraint.isLogical) generated ∧
      generated.Pairwise Unshared ∧ form.condition.Nodup ∧
      ∀ name, name ∈ form.condition ↔ Reserved name ∧ ∃ row ∈ form.rows, name ∈ row.names := by
  obtain ⟨derived, hmade⟩ := exists_madeOf h
  have hunreserved : ∀ c ∈ splitConstraints constraints form.split, c.Unreserved :=
    List.forall_mem_map.mpr fun c hc => Constraint.Unreserved.mapRows_split
      (fun row hrow name hname => hmade.not_reserved_of_operand hc hrow hname) form.split
  obtain ⟨own, generated, rfl, hcondition, hall⟩ :=
    Compiler.generatesFrom_compileAll hunreserved 0 _ _ _ hmade.run_eq fun i _ => List.not_mem_nil
  rw [List.nil_append] at hcondition
  refine ⟨generated, hmade.rows_eq, hall.each, hall.unshared, ?_, fun name => ?_⟩
  · rw [hcondition]
    exact hall.nodup.map conditionName_injective
  · -- the plain rows hold no reserved name
    have hplain : ∀ row ∈ tightenedRows constraints binary integer form.split, row.Unreserved :=
      List.forall_mem_map.mpr fun row hrow =>
        Row.Unreserved.tighten (hunreserved _ (mem_plainRows.mp hrow) row List.mem_cons_self) _
    rw [hcondition, ← hall.marked_iff, hmade.rows_eq]
    exact (or_iff_right (not_marked hplain name)).symm.trans marked_append.symm

/-- An equivalence of rows over integers, a plain row and a disjunction. -/
def sampleForms : List Constraint :=
  [.equivalent ⟨[("x", 1)], .ge, 2, none⟩ ⟨[("y", 1)], .le, 3, none⟩, .plain ⟨[("x", 1)], .le, 9, none⟩,
    .joined .or ⟨[("x", 1)], .ge, 5, none⟩ ⟨[("y", 1)], .ge, 6, none⟩]

/-- Over integers, `x >= 2 ↔ y <= 3` takes two conditions and `x >= 5 or y >= 6` a third one. -/
theorem standardize_unshared_sample :
    ∃ (form : StandardForm) (generated : List (List Row)),
      standardize sampleForms [] ["x", "y"] [] true = .ok form ∧ form.condition = ["_y0", "_y1", "_y2"] ∧
      form.rows = tightenedRows sampleForms [] ["x", "y"] form.split ++ generated.flatten ∧
      generated.length = 2 ∧ generated.Pairwise Unshared ∧ form.condition.Nodup := by
  have hcondition : (standardize sampleForms [] ["x", "y"] [] true).toOption.map StandardForm.condition =
      some ["_y0", "_y1", "_y2"] := by
    decide +kernel
  cases hform : standardize sampleForms [] ["x", "y"] [] true with
  | error fault =>
    rw [hform] at hcondition
    cases hcondition
  | ok form =>
    rw [hform] at hcondition
    obtain ⟨generated, hrows, hall, hunshared, hnodup, -⟩ := standardize_unshared hform
    exact ⟨form, generated, rfl, Option.some.inj hcondition, hrows, hall.length_eq.symm, hunshared, hnodup⟩

end Standard

end ExactLP
