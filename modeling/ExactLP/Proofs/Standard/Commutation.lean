import ExactLP.Proofs.InStep
import ExactLP.Proofs.Model.Written
import ExactLP.Proofs.Standard.BigM
import ExactLP.Proofs.Standard.Meaning
import Mathlib.Data.List.Forall2

/-!
# Proofs.Standard.Commutation — splitting before compiling and after it

Constraints may be split into parts first and then compiled, or compiled and then split.  Where no name is that
of a part, both ways take the same conditions, fail for the same kind of reason, and leave the same rows.

* `Constraint.Over`, `Compiler.Over`: constraints and compilers beside those over parts.
* `CompilesOver`: one computation beside the one over parts; `over_compile`, `over_compileAll`: the logical forms.
* `standardize_split`: the standard form without splitting and the one with it.
-/

namespace ExactLP

variable {split integral integral' : List String} {name : String} {r r' a a' b b' : Row} {rows rows' : List Row}
  {k k' : Compiler} {c c' : Constraint} {index : Int}

/-! ## Constraints over parts -/

section Constraints

/-- The second constraint is the first one over parts. -/
inductive Constraint.Over (split : List String) : Constraint → Constraint → Prop where
  | plain {r r' : Row} (h : r.Over split r') : Over split (plain r) (plain r')
  | implies {p p' q q' : Row} (hp : p.Over split p') (hq : q.Over split q') : Over split (implies p q) (implies p' q')
  | equivalent {p p' q q' : Row} (hp : p.Over split p') (hq : q.Over split q') :
      Over split (equivalent p q) (equivalent p' q')
  | joined {a a' b b' : Row} (operator : Junction) (ha : a.Over split a') (hb : b.Over split b') :
      Over split (joined operator a b) (joined operator a' b')

theorem Constraint.over_mapRows_split (h : ∀ row ∈ c.operands, row.Separate split) :
    c.Over split (c.mapRows fun r => r.split split) := by
  cases c with
  | plain row => exact .plain (h row List.mem_cons_self).over_split
  | implies p q => exact .implies (h p (by simp [operands])).over_split (h q (by simp [operands])).over_split
  | equivalent p q => exact .equivalent (h p (by simp [operands])).over_split (h q (by simp [operands])).over_split
  | joined operator a b =>
    exact .joined operator (h a (by simp [operands])).over_split (h b (by simp [operands])).over_split

theorem Row.eq_map_split (h : List.Forall₂ (Over split) rows rows') : rows' = rows.map fun r => r.split split := by
  induction h with
  | nil => rfl
  | cons hrow _ ih => rw [List.map_cons, ← ih, ← hrow.eq_split]

/-- A row over parts can be written when the row can. -/
theorem Row.Over.writable (h : r.Over split r') : r'.Writable ↔ r.Writable := by
  obtain ⟨hsep, rfl⟩ := h
  have hentries : ∀ p : String × Rat,
      (∀ e ∈ Named.partEntries Neg.neg split p, ExactLP.Writable e.2) ↔ ExactLP.Writable p.2 := by
    intro p
    unfold Named.partEntries
    split <;> simp [writable_neg]
  unfold Row.Writable
  rw [← Terms.parted_nonzero, hsep.nonzero]
  refine and_congr_left' ?_
  simp only [Terms.parted, Named.parted, List.mem_flatMap, forall_exists_index, and_imp]
  exact ⟨fun h p hp => (hentries p).mp fun e he => h e p hp he, fun h e p hp => (hentries p).mpr (h p hp) e⟩

theorem agree_of_goesThrough {α β : Type} {x : Except NumberFault α} {y : Except NumberFault β} {P Q : Prop}
    (hx : GoesThrough x P) (hy : GoesThrough y Q) (h : Q ↔ P) :
    Agree (fun _ _ => True) (liftM x : Except Fault α) (liftM y : Except Fault β) := by
  rcases hx with ⟨hP, a, rfl⟩ | ⟨hP, rfl⟩
  · rcases hy with ⟨-, b, rfl⟩ | ⟨hQ, -⟩
    · trivial
    · exact absurd (h.mpr hP) hQ
  · rcases hy with ⟨hQ, -⟩ | ⟨-, rfl⟩
    · exact absurd (h.mp hQ) hP
    · rfl

/-- The text of a constraint over parts fails where that of the constraint fails. -/
theorem Constraint.Over.agree_written (h : c.Over split c') :
    Agree (fun _ _ => True) (liftM c.written : Except Fault String) (liftM c'.written : Except Fault String) := by
  refine agree_of_goesThrough c.goesThrough_written c'.goesThrough_written ?_
  cases h with
  | plain h => simp [operands, h.writable]
  | implies hp hq => simp [operands, hp.writable, hq.writable]
  | equivalent hp hq => simp [operands, hp.writable, hq.writable]
  | joined operator ha hb => simp [operands, ha.writable, hb.writable]

end Constraints

/-! ## Computations over parts -/

section Computations

/-- The second compiler is the first one over parts, and neither binaries nor conditions are split. -/
structure Compiler.Over (split : List String) (k k' : Compiler) : Prop where
  others : List.Forall₂ (Row.Over split) k.others k'.others
  binary : k'.binary = k.binary
  integral : IntegralOver split k.integral k'.integral
  whole_binary : ∀ name ∈ k.binary, Whole split name
  whole_condition : ∀ name, Reserved name → Whole split name

/-- Both computations take the same conditions and fail alike, and the rows of the second are those of the first
over parts. -/
def CompilesOver (split : List String) (x y : Compiling (List Row)) : Prop :=
  InStep Eq Eq x y (List.Forall₂ (Row.Over split)) Eq

theorem inStep_takeCondition (index : Int) :
    InStep Eq Eq (takeCondition index) (takeCondition index) (fun name name' => name' = name ∧ Reserved name) Eq := by
  rintro s _ rfl
  exact ⟨⟨rfl, reserved_condition index⟩, rfl⟩

/-- The variable of a truth value is whole. -/
def Truth.Whole (split : List String) (t : Truth) : Prop :=
  ∀ name value, t = literal name value → ExactLP.Whole split name

theorem over_literalRow (h : Whole split name) (value : Bool) :
    (literalRow name value).Over split (literalRow name value) :=
  Row.over_self (by simpa [Keyed.names] using h) (Terms.nodup_single name _) _ _ _

theorem over_pair {x y : String} (hx : Whole split x) (hy : Whole split y) (v w : Rat) (cmp : Comparator) (rhs : Rat) :
    (Row.of (Keyed.put [(x, v)] y w) cmp rhs none).Over split (Row.of (Keyed.put [(x, v)] y w) cmp rhs none) := by
  refine Row.over_self (fun name hname => ?_) (Keyed.nodup_put (Terms.nodup_single x v) y w) _ _ _
  rcases Keyed.mem_names_put.mp hname with hold | rfl
  · rw [List.mem_singleton.mp hold]
    exact hx
  · exact hy

namespace Compiler

theorem Over.emit (h : k.Over split k') (hrows : List.Forall₂ (Row.Over split) rows rows') :
    List.Forall₂ (Row.Over split) (k.emit rows) (k'.emit rows') :=
  List.rel_map (fun _ _ hrow => hrow.tighten h.integral) hrows

theorem exists_of_isLiteral (h : k.isLiteral r = true) : ∃ x ∈ k.binary, r.names = [x] := by
  unfold isLiteral at h
  split at h
  · rename_i x hnames
    exact ⟨x, List.contains_iff_mem.mp h, hnames⟩
  · cases h

theorem Over.eq_of_isLiteral (h : k.Over split k') (hrow : r.Over split r') (hlit : k.isLiteral r = true) : r' = r := by
  obtain ⟨x, hx, hnames⟩ := exists_of_isLiteral hlit
  rw [hrow.eq, Terms.parted, Named.parted_of_not_mem]
  intro name hname
  rw [← Row.names, hnames, List.mem_singleton] at hname
  exact hname ▸ (h.whole_binary x hx).not_mem

theorem Over.isLiteral (h : k.Over split k') (hrow : r.Over split r') : k'.isLiteral r' = k.isLiteral r := by
  have hnames : r'.names = r.names.flatMap (Terms.partsOf split) := by
    rw [Row.names, hrow.terms]
    exact Named.names_parted _ _
  unfold Compiler.isLiteral
  rw [hnames, h.binary]
  rcases r.names with _ | ⟨x, _ | ⟨y, rest⟩⟩
  · rfl
  · by_cases hx : x ∈ split
    · have hnot : ¬x ∈ k.binary := fun hbinary => (h.whole_binary x hbinary).not_mem hx
      simp [Terms.partsOf, hx, hnot]
    · simp [Terms.partsOf, hx]
  · by_cases hx : x ∈ split <;> by_cases hy : y ∈ split <;> simp [Terms.partsOf, hx, hy]

/-! ### Junctions -/

/-- The truth of a row over one binary names that binary. -/
theorem Over.whole_truth (h : k.Over split k') (hlit : k.isLiteral r = true) {t : Truth} (ht : r.truth = .ok t) :
    t.Whole split := by
  obtain ⟨x, hx, hnames⟩ := exists_of_isLiteral hlit
  rintro name value rfl
  unfold Row.truth at ht
  split at ht
  · rename_i y q hterms
    have hxy : y = x := by simpa [Row.names, Keyed.names, hterms] using hnames
    have hname : name = y := by
      unfold truthOf at ht
      split_ifs at ht <;> cases ht <;> rfl
    rw [hname, hxy]
    exact h.whole_binary x hx
  · cases ht

theorem Over.agree_truth (h : k.Over split k') (hlit : k.isLiteral r = true) :
    Agree (fun t t' => t' = t ∧ t.Whole split) r.truth r.truth :=
  Agree.refl fun _ ht => ⟨rfl, h.whole_truth hlit ht⟩

theorem over_literalOr {x y : Truth} (hx : x.Whole split) (hy : y.Whole split) (h : literalOr c x y = .ok rows) :
    ∀ row ∈ rows, row.Over split row := by
  unfold literalOr at h
  split at h
  · exact Except.ok.inj h ▸ List.forall_mem_nil _
  · exact Except.ok.inj h ▸ List.forall_mem_nil _
  · exact absurd h (refuse_ne_ok _ _ _)
  · exact Except.ok.inj h ▸ List.forall_mem_singleton.mpr (over_literalRow (hy _ _ rfl) _)
  · exact Except.ok.inj h ▸ List.forall_mem_singleton.mpr (over_literalRow (hx _ _ rfl) _)
  · split at h
    · obtain rfl := Except.ok.inj h
      split
      · exact List.forall_mem_singleton.mpr (over_literalRow (hx _ _ rfl) _)
      · exact List.forall_mem_nil _
    · exact Except.ok.inj h ▸ List.forall_mem_singleton.mpr (over_pair (hx _ _ rfl) (hy _ _ rfl) _ _ _ _)

theorem over_literalXor {x y : Truth} (hx : x.Whole split) (hy : y.Whole split) (h : literalXor c x y = .ok rows) :
    ∀ row ∈ rows, row.Over split row := by
  unfold literalXor at h
  split at h
  · exact absurd h (refuse_ne_ok _ _ _)
  · exact absurd h (refuse_ne_ok _ _ _)
  · exact Except.ok.inj h ▸ List.forall_mem_nil _
  · exact Except.ok.inj h ▸ List.forall_mem_nil _
  · exact Except.ok.inj h ▸ List.forall_mem_singleton.mpr (over_literalRow (hy _ _ rfl) _)
  · exact Except.ok.inj h ▸ List.forall_mem_singleton.mpr (over_literalRow (hx _ _ rfl) _)
  · exact Except.ok.inj h ▸ List.forall_mem_singleton.mpr (over_literalRow (hy _ _ rfl) _)
  · exact Except.ok.inj h ▸ List.forall_mem_singleton.mpr (over_literalRow (hx _ _ rfl) _)
  · split_ifs at h
    · exact absurd h (refuse_ne_ok _ _ _)
    · exact Except.ok.inj h ▸ List.forall_mem_nil _
    · exact Except.ok.inj h ▸ List.forall_mem_singleton.mpr (over_pair (hx _ _ rfl) (hy _ _ rfl) _ _ _ _)
    · exact Except.ok.inj h ▸ List.forall_mem_singleton.mpr (over_pair (hx _ _ rfl) (hy _ _ rfl) _ _ _ _)

/-- A junction that is decided by two literals. -/
theorem Over.literals (h : k.Over split k') (ha : k.isLiteral a = true) (hb : k.isLiteral b = true)
    {f : Truth → Truth → Except Fault (List Row)}
    (hf : ∀ x y rows, x.Whole split → y.Whole split → f x y = .ok rows → ∀ row ∈ rows, row.Over split row) :
    CompilesOver split (do f (← a.truth) (← b.truth)) (do f (← a.truth) (← b.truth)) := by
  refine (inStep_lift (fun _ _ => id) (h.agree_truth ha)).bind fun x _ hx => ?_
  obtain ⟨rfl, hx⟩ := hx
  refine (inStep_lift (fun _ _ => id) (h.agree_truth hb)).bind fun y _ hy => ?_
  obtain ⟨rfl, hy⟩ := hy
  exact inStep_lift (fun _ _ => id) (Agree.refl fun rows hrows => List.forall₂_same.mpr (hf _ _ rows hx hy hrows))

theorem over_disjunction (h : k.Over split k') (ha : a.Over split a') (hb : b.Over split b') (index : Int) :
    CompilesOver split (k.disjunction a b index) (k'.disjunction a' b' index) := by
  have hm := bigM_over (.cons ha (.cons hb .nil)) h.others
  unfold disjunction
  rw [hm]
  refine (inStep_takeCondition index).bind fun name _ hname => ?_
  obtain ⟨rfl, hreserved⟩ := hname
  have hwhole := h.whole_condition _ hreserved
  refine inStep_pure (List.rel_append ?_ ?_)
  · refine List.rel_map (fun half half' hhalf => ?_) (ha.tighten h.integral).halves
    rw [hhalf.cmp]
    exact hhalf.withCondition hwhole _ _
  · refine List.rel_map (fun half half' hhalf => ?_) (hb.tighten h.integral).halves
    rw [hhalf.cmp]
    exact hhalf.withCondition hwhole _ _

/-! ### Implications -/

theorem over_zeroConsequent (hb : b.Over split b') (hname : Whole split name) (value : Bool) (m : Rat) :
    List.Forall₂ (Row.Over split) (zeroConsequent name value b.terms m) (zeroConsequent name value b'.terms m) := by
  have hown : ∀ sign, (b'.terms.scale sign).coefficient name = (b.terms.scale sign).coefficient name := by
    intro sign
    rw [hb.terms, ← Terms.parted_scale, Terms.coefficient_parted _ hname]
    rw [Terms.names_scale]
    exact hb.separate.unsplit
  have hsigns : List.Forall₂ Eq ([1, -1] : List Rat) [1, -1] := List.forall₂_same.mpr fun _ _ => rfl
  refine List.rel_map (fun sign sign' hsign => ?_) hsigns
  obtain rfl := hsign
  dsimp only
  rw [hown]
  split
  · exact hb.scale_put hname _ _ _ _
  · exact hb.scale_put hname _ _ _ _

theorem over_conditionalRows (ha : a.Over split a') (hrows : List.Forall₂ (Row.Over split) rows rows')
    (hname : Whole split name) (m : Rat) :
    List.Forall₂ (Row.Over split) (conditionalRows a rows m name) (conditionalRows a' rows' m name) := by
  unfold conditionalRows
  rw [ha.cmp, ha.rhs]
  refine List.rel_append ?_ (.cons (ha.scale_put hname _ _ _ _) .nil)
  refine List.rel_map (fun half half' hhalf => ?_) hrows
  dsimp only
  rw [hhalf.cmp, hhalf.rhs]
  exact hhalf.scale_put hname _ _ _ _

theorem any_strict_over (hrows : List.Forall₂ (Row.Over split) rows rows') :
    rows'.any Row.strict = rows.any Row.strict := by
  induction hrows with
  | nil => rfl
  | cons hrow _ ih => rw [List.any_cons, List.any_cons, hrow.strict, ih]

theorem over_conditional (h : k.Over split k') (ha : a.Over split a') (hb : b.Over split b')
    (origin origin' : Constraint) (report report' : String) (index : Int) :
    CompilesOver split (k.conditional a b origin report index) (k'.conditional a' b' origin' report' index) := by
  have hhalves : List.Forall₂ (Row.Over split) (b.halves.map fun half => half.tighten k.integral)
      (b'.halves.map fun half => half.tighten k'.integral) :=
    List.rel_map (fun _ _ hhalf => hhalf.tighten h.integral) hb.halves
  have hm := bigM_over (.cons ha (.cons hb .nil)) h.others
  unfold conditional
  dsimp only
  rw [any_strict_over hhalves, hm]
  split
  · exact inStep_throw (fun _ _ => id) rfl
  · refine (inStep_takeCondition index).bind fun name _ hname => ?_
    obtain ⟨rfl, hreserved⟩ := hname
    exact inStep_pure (over_conditionalRows ha hhalves (h.whole_condition _ hreserved) _)

theorem over_implication (h : k.Over split k') (ha : a.Over split a') (hb : b.Over split b') (index : Int) :
    CompilesOver split (k.implication a b index) (k'.implication a' b' index) := by
  have hwritten := (Constraint.Over.implies ha hb).agree_written
  refine (inStep_lift (fun _ _ => id) hwritten).bind fun report report' _ => ?_
  dsimp only
  rw [h.isLiteral ha, ha.strict]
  split
  · rename_i hlit
    -- a row over one binary is its own row over parts, so it has one truth value
    obtain rfl := h.eq_of_isLiteral ha hlit
    refine (inStep_lift (fun _ _ => id) (h.agree_truth hlit)).bind fun _ t ht => ?_
    obtain ⟨rfl, ht⟩ := ht
    cases t with
    | always => exact inStep_pure (h.emit (.cons hb .nil))
    | never => exact inStep_pure .nil
    | literal name value =>
      have hname := ht name value rfl
      have hself : ∀ (cmp : Comparator) (rhs : Rat),
          (Row.of [(name, 1)] cmp rhs none).Over split (Row.of [(name, 1)] cmp rhs none) := fun cmp rhs =>
        Row.over_self (by simpa [Keyed.names] using hname) (Terms.nodup_single name _) _ _ _
      dsimp only
      rw [hb.cmp, hb.rhs]
      split
      · rw [bigM_over (.cons ha (.cons hb .nil)) h.others]
        exact inStep_pure (over_zeroConsequent hb hname _ _)
      · cases value
        · exact over_conditional h (hself _ _) hb _ _ _ _ _
        · exact over_conditional h (hself _ _) hb _ _ _ _ _
  · split
    · exact over_conditional h ha hb _ _ _ _ _
    · have hloosen := ha.loosen? h.integral
      generalize a.loosen? k.integral = x at hloosen ⊢
      generalize a'.loosen? k'.integral = y at hloosen ⊢
      cases hloosen with
      | some hstrict => exact over_conditional h hstrict hb _ _ _ _ _
      | none => exact inStep_throw (fun _ _ => id) rfl

theorem over_equivalence (h : k.Over split k') (ha : a.Over split a') (hb : b.Over split b') (index : Int) :
    CompilesOver split (k.equivalence a b index) (k'.equivalence a' b' index) := by
  refine (over_implication h ha hb index).bind fun forth forth' hforth => ?_
  refine (over_implication h hb ha (index + 1)).bind fun back back' hback => ?_
  exact inStep_pure (List.rel_append hforth hback)

theorem over_junction (h : k.Over split k') (ha : a.Over split a') (hb : b.Over split b') (operator : Junction)
    (index : Int) : CompilesOver split (k.junction operator a b index) (k'.junction operator a' b' index) := by
  cases operator with
  | and => exact inStep_pure (h.emit (.cons ha (.cons hb .nil)))
  | nor => exact inStep_pure (h.emit (.cons ha.negated (.cons hb.negated .nil)))
  | or =>
    unfold junction
    dsimp only
    rw [h.isLiteral ha, h.isLiteral hb]
    split
    · rename_i hlit
      rw [Bool.and_eq_true] at hlit
      obtain rfl := h.eq_of_isLiteral ha hlit.1
      obtain rfl := h.eq_of_isLiteral hb hlit.2
      exact h.literals hlit.1 hlit.2 fun x y rows => over_literalOr
    · exact over_disjunction h ha hb index
  | xor =>
    unfold junction
    dsimp only
    rw [h.isLiteral ha, h.isLiteral hb]
    split
    · rename_i hlit
      rw [Bool.and_eq_true] at hlit
      obtain rfl := h.eq_of_isLiteral ha hlit.1
      obtain rfl := h.eq_of_isLiteral hb hlit.2
      exact h.literals hlit.1 hlit.2 fun x y rows => over_literalXor
    · exact over_equivalence h ha hb.negated index

theorem over_compile (h : k.Over split k') (hc : c.Over split c') (index : Int) :
    CompilesOver split (k.compile c index) (k'.compile c' index) := by
  cases hc with
  | plain hr => exact inStep_throw (fun _ _ => id) rfl
  | implies hp hq => exact over_implication h hp hq index
  | equivalent hp hq => exact over_equivalence h hp hq index
  | joined operator ha hb => exact over_junction h ha hb operator index

theorem over_compileAll (h : k.Over split k') {constraints constraints' : List Constraint}
    (hall : List.Forall₂ (Constraint.Over split) constraints constraints') (index : Int) :
    CompilesOver split (k.compileAll index constraints) (k'.compileAll index constraints') := by
  induction hall generalizing index with
  | nil => exact inStep_pure .nil
  | @cons c c' rest rest' hc _ ih =>
    have hlogical : CompilesOver split
        (do
          let rows ← k.compile c index
          let _ ← (c.written : Except Fault String)
          return rows ++ (← k.compileAll (index + 2) rest))
        (do
          let rows ← k'.compile c' index
          let _ ← (c'.written : Except Fault String)
          return rows ++ (← k'.compileAll (index + 2) rest')) := by
      refine (over_compile h hc index).bind fun rows rows' hrows => ?_
      refine (inStep_lift (fun _ _ => id) hc.agree_written).bind fun _ _ _ => ?_
      exact (ih (index + 2)).bind fun others others' hothers => inStep_pure (List.rel_append hrows hothers)
    cases hc with
    | plain hr => exact ih index
    | implies hp hq => exact hlogical
    | equivalent hp hq => exact hlogical
    | joined operator ha hb => exact hlogical

end Compiler

end Computations

/-! ## The standard form -/

section Standard

variable {constraints : List Constraint} {binary integer unrestricted : List String}

/-- A declared integer is integral, and so are its parts where it is split. -/
theorem mem_integralNames_of_declared (h : name ∈ binary ++ integer ∨
      ∃ x ∈ split, x ∈ binary ++ integer ∧ (name = positivePart x ∨ name = negativePart x)) :
    name ∈ integralNames binary integer split := by
  unfold integralNames
  generalize binary ++ integer = names at h ⊢
  induction split generalizing names with
  | nil => exact h.elim id fun ⟨x, hx, _⟩ => absurd hx List.not_mem_nil
  | cons y rest ih =>
    rw [List.foldl_cons]
    apply ih
    rcases h with hold | ⟨x, hx, hint, hpart⟩
    · left
      split
      · exact List.mem_append_left _ hold
      · exact hold
    · rcases List.mem_cons.mp hx with rfl | hrest
      · left
        rw [if_pos hint, List.mem_append, List.mem_pair]
        exact Or.inr hpart
      · right
        refine ⟨x, hrest, ?_, hpart⟩
        split
        · exact List.mem_append_left _ hint
        · exact hint

/-- A part is integral when its variable is, and any other name when it is declared so. -/
theorem integralOver_integralNames (hsplit : Unsplit split split) (hdeclared : Unsplit split (binary ++ integer)) :
    IntegralOver split (binary ++ integer) (integralNames binary integer split) := by
  intro name hname k hk
  have hown : k ∉ split → k = name → (k ∈ integralNames binary integer split ↔ name ∈ binary ++ integer) := by
    rintro - rfl
    refine ⟨fun hmem => ?_, fun hmem => mem_integralNames_of_declared (Or.inl hmem)⟩
    rcases mem_integralNames hsplit hmem with hown | ⟨x, hx, -, hpart⟩
    · exact hown
    · exact absurd hpart (not_or.mpr (hname k (List.mem_singleton_self k) x hx))
  unfold Terms.partsOf at hk
  split at hk
  · rename_i hmem
    have hpart : k = positivePart name ∨ k = negativePart name := List.mem_pair.mp hk
    refine ⟨fun hk => ?_, fun hint => mem_integralNames_of_declared (Or.inr ⟨name, hmem, hint, hpart⟩)⟩
    rcases mem_integralNames hsplit hk with hown | ⟨x, hx, hint, hpart'⟩
    · exact absurd hpart (not_or.mpr (hdeclared k hown name hmem))
    · -- a part belongs to one variable
      have hxname : x = name := by
        rcases hpart with rfl | rfl <;> rcases hpart' with heq | heq
        · exact (positivePart_inj heq).symm
        · exact absurd heq (positivePart_ne_negativePart _ _)
        · exact absurd heq.symm (positivePart_ne_negativePart _ _)
        · exact (negativePart_inj heq).symm
      exact hxname ▸ hint
  · rename_i hmem
    have hkname := List.mem_singleton.mp hk
    exact hown (hkname ▸ hmem) hkname

/-- Splitting nothing changes nothing. -/
theorem splitConstraints_nil (constraints : List Constraint) : splitConstraints constraints [] = constraints := by
  have hrow : ∀ r : Row, r.split [] = r := fun r => by simp [Row.split]
  unfold splitConstraints
  conv_rhs => rw [← List.map_id constraints]
  refine List.map_congr_left fun c _ => ?_
  cases c <;> simp [Constraint.mapRows, hrow]

theorem over_plainRows {constraints' : List Constraint}
    (h : List.Forall₂ (Constraint.Over split) constraints constraints') :
    List.Forall₂ (Row.Over split) (plainRows constraints) (plainRows constraints') := by
  induction h with
  | nil => exact .nil
  | cons hc _ ih =>
    cases hc with
    | plain hr => exact .cons hr ih
    | implies hp hq => exact ih
    | equivalent hp hq => exact ih
    | joined operator ha hb => exact ih

/-- The caller's names: those in rows and those that are declared. -/
def callerNames (constraints : List Constraint) (binary integer unrestricted : List String) : List String :=
  constraints.flatMap (fun c => c.operands.flatMap Row.names) ++ binary ++ integer ++ unrestricted

/-- A condition is whole, since no name of the caller is reserved. -/
theorem whole_of_reserved (h : ∀ x ∈ split, ¬Reserved x) (hname : Reserved name) : Whole split name := by
  refine ⟨fun hmem => h name hmem hname, List.forall_mem_singleton.mpr fun x hx => ?_⟩
  have hpart : ∀ k ∈ Terms.partsOf split x, name ≠ k := fun k hk heq =>
    not_reserved_of_mem_partsOf (h x hx) hk (heq ▸ hname)
  rw [partsOf_of_mem hx] at hpart
  exact ⟨hpart _ (by simp), hpart _ (by simp)⟩

theorem over_compiler (hsplit : ∀ x ∈ split, x ∉ binary ∧ ¬Reserved x) (hself : Unsplit split split)
    (hdeclared : Unsplit split (binary ++ integer))
    (hall : List.Forall₂ (Constraint.Over split) constraints (splitConstraints constraints split)) :
    Compiler.Over split ⟨tightenedRows constraints binary integer [], binary, integralNames binary integer []⟩
      ⟨tightenedRows constraints binary integer split, binary, integralNames binary integer split⟩ where
  others := by
    unfold tightenedRows
    rw [splitConstraints_nil]
    exact List.rel_map (fun _ _ hrow => hrow.tighten (integralOver_integralNames hself hdeclared)) (over_plainRows hall)
  binary := rfl
  integral := integralOver_integralNames hself hdeclared
  whole_binary name hname := ⟨fun hmem => (hsplit name hmem).1 hname, hdeclared.of_mem (List.mem_append_left _ hname)⟩
  whole_condition _ hname := whole_of_reserved (fun x hx => (hsplit x hx).2) hname

/-- The standard form where no reserved name is used. -/
theorem standardize_eq {splitting : Bool}
    (h : (reservedNames constraints (binary ++ integer ++ unrestricted)).isEmpty = true) (split : List String)
    (hsplit : split = if splitting then unrestricted.filter fun name => !binary.contains name else []) :
    standardize constraints binary integer unrestricted splitting =
      let run := (Compiler.compileAll
        ⟨tightenedRows constraints binary integer split, binary, integralNames binary integer split⟩ 0
        (splitConstraints constraints split)).run []
      run.1 >>= fun derived => pure ⟨tightenedRows constraints binary integer split ++ derived, run.2, split⟩ := by
  subst hsplit
  unfold standardize
  dsimp only
  rw [h]
  rfl

/-- Where no name of the caller is that of a part, the standard forms without and with splitting have the same
conditions and the same rows, those of the first split, or both are refused for the same kind of reason.  Rows have
each name once and no zero coefficient, as every row that is read. -/
theorem standardize_split
    (hrows : ∀ c ∈ constraints, ∀ row ∈ c.operands, row.names.Nodup ∧ ∀ p ∈ row.terms, p.2 ≠ 0)
    (hunsplit : Unsplit (unrestricted.filter fun name => !binary.contains name)
      (callerNames constraints binary integer unrestricted)) :
    Agree (fun plain parts : StandardForm =>
        parts.condition = plain.condition ∧ parts.rows = plain.rows.map fun r => r.split parts.split)
      (standardize constraints binary integer unrestricted false)
      (standardize constraints binary integer unrestricted true) := by
  by_cases hempty : (reservedNames constraints (binary ++ integer ++ unrestricted)).isEmpty = true
  · rw [standardize_eq hempty [] rfl, standardize_eq hempty _ rfl, if_pos rfl]
    generalize hsplit : (unrestricted.filter fun name => !binary.contains name) = split at hunsplit ⊢
    have hmem : ∀ x ∈ split, x ∈ unrestricted ∧ x ∉ binary := fun x hx => by
      simpa [← hsplit] using hx
    unfold callerNames at hunsplit
    simp only [unsplit_append] at hunsplit
    obtain ⟨⟨⟨hused, hbinary⟩, hinteger⟩, hunrestricted⟩ := hunsplit
    have hseparate : ∀ c ∈ constraints, ∀ row ∈ c.operands, row.Separate split := by
      intro c hc row hrow
      obtain ⟨hnd, hne⟩ := hrows c hc row hrow
      refine ⟨hnd, List.filter_eq_self.mpr fun p hp => by simpa using hne p hp, fun name hname => ?_⟩
      exact hused name (List.mem_flatMap.mpr ⟨c, hc, List.mem_flatMap.mpr ⟨row, hrow, hname⟩⟩)
    have hall : List.Forall₂ (Constraint.Over split) constraints (splitConstraints constraints split) := by
      unfold splitConstraints
      rw [List.forall₂_map_right_iff]
      exact List.forall₂_same.mpr fun c hc => Constraint.over_mapRows_split (hseparate c hc)
    have hk := over_compiler (fun x hx => ⟨(hmem x hx).2, not_reserved_of_isEmpty hempty
      (List.mem_append_left _ (List.mem_append_right _ (hmem x hx).1))⟩)
      (hunrestricted.mono fun x hx => (hmem x hx).1) (unsplit_append.mpr ⟨hbinary, hinteger⟩) hall
    have hends := Compiler.over_compileAll hk hall 0 [] [] rfl
    have hcondition := hends.states fun _ _ => id
    rw [splitConstraints_nil]
    exact hends.agree.bind fun derived derived' hderived =>
      ⟨hcondition.symm, Row.eq_map_split (List.rel_append hk.others hderived)⟩
  · unfold standardize
    dsimp only
    rw [Bool.not_eq_true] at hempty
    rw [hempty]
    exact rfl

/-- A row and two logical forms over an integer `x` of either sign, an integer `y`, a real `w` and a binary `b`. -/
def sampleConstraints : List Constraint :=
  [.plain ⟨[("x", 2), ("y", 1)], .lt, 5 / 2, none⟩,
    .implies ⟨[("b", 1)], .eq, 1, none⟩ ⟨[("x", 1), ("w", -1)], .ge, 3, none⟩,
    .joined .or ⟨[("x", 1)], .le, -2, none⟩ ⟨[("y", 1)], .gt, 1, none⟩]

theorem standardize_split_sample : ∃ plain parts,
    standardize sampleConstraints ["b"] ["x", "y"] ["x"] false = .ok plain ∧
      standardize sampleConstraints ["b"] ["x", "y"] ["x"] true = .ok parts ∧ parts.split = ["x"] ∧
      parts.condition = plain.condition ∧ parts.rows = plain.rows.map fun r => r.split ["x"] := by
  have hagree := @standardize_split sampleConstraints ["b"] ["x", "y"] ["x"] (by decide) (by decide)
  have hsplit : (standardize sampleConstraints ["b"] ["x", "y"] ["x"] true).map StandardForm.split = .ok ["x"] := by
    decide +kernel
  rcases hagree.cases with ⟨plain, parts, hplain, hparts, hcondition, hrows⟩ | ⟨e, f, -, hparts, -⟩
  · rw [hparts] at hsplit
    obtain hsplit := Except.ok.inj hsplit
    exact ⟨plain, parts, hplain, hparts, hsplit, hcondition, hsplit ▸ hrows⟩
  · rw [hparts] at hsplit
    cases hsplit

end Standard

end ExactLP
