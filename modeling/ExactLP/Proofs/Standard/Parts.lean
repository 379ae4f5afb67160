import ExactLP.Proofs.Standard.Compile
import ExactLP.Proofs.Standard.Integral

/-!
# Proofs.Standard.Parts — tables, forms and rows beside those over parts

A table over parts has two entries in the place of every name that is split.  Where no name is that of a part,
writing into a table and then splitting it is the same as splitting it and then writing the parts, and so is every
operation on forms and rows that compiling uses.

* `Named.parted`: the table over parts; `parted_put`, `find?_parted`: writes and reads.
* `Terms.split_eq_parted`: splitting a form that holds each name once.
* `Row.distinct_and_nonzero_of_read`: what every row that was read has of what `Row.Separate` asks.
* `Row.Over`: a row and the row over parts; one rule for each operation on rows, from `Row.over_of`.
-/

namespace ExactLP

open Terms (partsOf)

variable {split names : List String} {name other k : String} {f : Rat → Rat} {table : Named Rat}

/-! ## Names -/

section Names

/-- The name is neither split nor that of a part. -/
structure Whole (split : List String) (name : String) : Prop where
  not_mem : name ∉ split
  unsplit : Unsplit split [name]

theorem unsplit_cons : Unsplit split (name :: names) ↔ Unsplit split [name] ∧ Unsplit split names := by
  simp [Unsplit]

theorem unsplit_append {more : List String} :
    Unsplit split (names ++ more) ↔ Unsplit split names ∧ Unsplit split more :=
  List.forall_mem_append

theorem Unsplit.skip (h : Unsplit split (name :: other :: names)) : Unsplit split (name :: names) :=
  unsplit_cons.mpr ⟨(unsplit_cons.mp h).1, (unsplit_cons.mp (unsplit_cons.mp h).2).2⟩

theorem Unsplit.of_mem (h : Unsplit split names) (hname : name ∈ names) : Unsplit split [name] :=
  List.forall_mem_singleton.mpr (h name hname)

theorem Unsplit.mono {fewer : List String} (h : Unsplit split names) (hsub : ∀ name ∈ fewer, name ∈ names) :
    Unsplit split fewer :=
  fun name hname => h name (hsub name hname)

theorem partsOf_of_mem (h : name ∈ split) : partsOf split name = [positivePart name, negativePart name] :=
  if_pos h

theorem Whole.partsOf (h : Whole split name) : partsOf split name = [name] :=
  if_neg h.not_mem

end Names

/-! ## Tables over parts -/

namespace Keyed

theorem put_append_of_not_mem {front back : Named Rat} {q : Rat} (h : k ∉ front.names) :
    put (front ++ back) k q = front ++ put back k q := by
  induction front with
  | nil => rfl
  | cons p rest ih =>
    rw [names, List.map_cons, List.mem_cons, not_or] at h
    rw [List.cons_append, put, if_neg (Ne.symm h.1), ih h.2, List.cons_append]

theorem find?_append (front back : Named Rat) (k : String) :
    find? (front ++ back) k = (front.find? k).or (back.find? k) := by
  induction front with
  | nil => rfl
  | cons p rest ih =>
    rw [List.cons_append, find?, find?, ih]
    split <;> rfl

/-- A table that holds each name once is what its own writes leave. -/
theorem foldl_put_of_nodup (front : Named Rat) {back : Named Rat} (h : (front ++ back).names.Nodup) :
    back.foldl (fun table p => table.put p.1 p.2) front = front ++ back := by
  induction back generalizing front with
  | nil => exact (List.append_nil front).symm
  | cons p rest ih =>
    have hp : p.1 ∉ front.names := by
      rw [names, List.map_append, List.nodup_append] at h
      exact fun hmem => h.2.2 _ hmem p.1 List.mem_cons_self rfl
    have hput : front.put p.1 p.2 = front ++ [p] := by
      conv_lhs => rw [← List.append_nil front, put_append_of_not_mem hp]
      rfl
    rw [List.foldl_cons, hput, ih (front ++ [p]), List.append_assoc]
    · rfl
    · rwa [List.append_assoc]

end Keyed

namespace Named

/-- The entries of one entry's name over parts; that of the subtracted part is changed by a function. -/
def partEntries (f : Rat → Rat) (split : List String) (p : String × Rat) : Named Rat :=
  if p.1 ∈ split then [(positivePart p.1, p.2), (negativePart p.1, f p.2)] else [p]

/-- A table over parts. -/
def parted (f : Rat → Rat) (split : List String) (table : Named Rat) : Named Rat :=
  table.flatMap (partEntries f split)

/-- A write of the parts of a name. -/
def putParts (f : Rat → Rat) (split : List String) (table : Named Rat) (p : String × Rat) : Named Rat :=
  if p.1 ∈ split then (table.put (positivePart p.1) p.2).put (negativePart p.1) (f p.2) else table.put p.1 p.2

theorem parted_nil : parted f split [] = [] := rfl

theorem parted_cons (p : String × Rat) (rest : Named Rat) :
    parted f split (p :: rest) = partEntries f split p ++ parted f split rest := rfl

theorem names_partEntries (f : Rat → Rat) (p : String × Rat) : (partEntries f split p).names = partsOf split p.1 := by
  unfold partEntries partsOf
  split <;> rfl

theorem names_parted (f : Rat → Rat) (table : Named Rat) :
    (parted f split table).names = table.names.flatMap (partsOf split) := by
  rw [parted, Keyed.names, List.map_flatMap, Keyed.names, List.flatMap_map]
  congr 1
  funext p
  exact names_partEntries f p

/-- Splitting changes nothing where no name is split. -/
theorem parted_of_not_mem (h : ∀ name ∈ table.names, name ∉ split) : parted f split table = table := by
  induction table with
  | nil => rfl
  | cons p rest ih =>
    rw [Keyed.names, List.map_cons, List.forall_mem_cons] at h
    rw [parted_cons, partEntries, if_neg h.1, ih h.2]
    rfl

/-- The entries of one name hold no part of another name. -/
theorem not_mem_partEntries (h : Unsplit split (name :: other :: names)) (hne : other ≠ name)
    (hk : k ∈ partsOf split name) (q : Rat) : k ∉ (partEntries f split (other, q)).names := by
  rw [names_partEntries]
  exact h.partsOf_disjoint List.mem_cons_self (List.mem_cons_of_mem _ List.mem_cons_self) hne.symm hk

theorem putParts_append {front back : Named Rat} {p : String × Rat} (h : ∀ k ∈ partsOf split p.1, k ∉ front.names) :
    putParts f split (front ++ back) p = front ++ putParts f split back p := by
  unfold putParts
  unfold partsOf at h
  split
  · rename_i hsplit
    rw [if_pos hsplit] at h
    rw [Keyed.put_append_of_not_mem (h _ (by simp)), Keyed.put_append_of_not_mem (h _ (by simp))]
  · rename_i hsplit
    rw [if_neg hsplit] at h
    exact Keyed.put_append_of_not_mem (h _ (by simp))

theorem putParts_partEntries (q q' : Rat) (rest : Named Rat) :
    putParts f split (partEntries f split (name, q') ++ rest) (name, q) = partEntries f split (name, q) ++ rest := by
  unfold putParts partEntries
  split <;> simp [Keyed.put, positivePart_ne_negativePart]

/-- Splitting after a write is a write of the parts after splitting. -/
theorem parted_put (h : Unsplit split (name :: table.names)) (q : Rat) :
    parted f split (table.put name q) = putParts f split (parted f split table) (name, q) := by
  induction table with
  | nil =>
    rw [Keyed.put, parted_cons, parted_nil, putParts, partEntries]
    split <;> simp [Keyed.put, positivePart_ne_negativePart]
  | cons p rest ih =>
    obtain ⟨x, q'⟩ := p
    rw [Keyed.put]
    by_cases hx : x = name
    · subst hx
      rw [if_pos rfl, parted_cons, parted_cons, putParts_partEntries]
    · rw [if_neg hx, parted_cons, parted_cons, putParts_append, ih h.skip]
      exact fun k hk => not_mem_partEntries h hx hk q'

/-- What is read over parts comes from the entries of the name. -/
theorem find?_parted (h : Unsplit split (name :: table.names)) (hk : k ∈ partsOf split name) :
    (parted f split table).find? k = (table.find? name).bind fun q => (partEntries f split (name, q)).find? k := by
  induction table with
  | nil => rfl
  | cons p rest ih =>
    obtain ⟨x, q⟩ := p
    rw [parted_cons, Keyed.find?_append, Keyed.find?]
    by_cases hx : x = name
    · subst hx
      have hsome : ((partEntries f split (x, q)).find? k).isSome := by
        rw [Option.isSome_iff_ne_none, Ne, Keyed.find?_eq_none_iff, names_partEntries, not_not]
        exact hk
      rw [if_pos rfl, Option.or_of_isSome hsome]
      rfl
    · have hnone : (partEntries f split (x, q)).find? k = none :=
        Keyed.find?_eq_none_iff.mpr (not_mem_partEntries h hx hk q)
      rw [if_neg hx, hnone, Option.none_or, ih h.skip]

end Named

/-! ## Forms over parts -/

namespace Terms

variable {terms : Terms}

/-- A form over parts. -/
abbrev parted (split : List String) (terms : Terms) : Terms := Named.parted Neg.neg split terms

/-- Splitting a form that holds each name once. -/
theorem split_eq_parted (hnd : terms.names.Nodup) (h : Unsplit split terms.names) :
    terms.split split = terms.parted split := by
  -- the entries in front are split already, those behind are still to be written
  suffices hgen : ∀ back front : Terms, Unsplit split (front ++ back).names →
      back.foldl (splitStep split) (front.parted split) =
        parted split (back.foldl (fun table p => table.put p.1 p.2) front) by
    exact (hgen terms [] h).trans (congrArg (parted split) (Keyed.foldl_put_of_nodup [] hnd))
  intro back
  induction back with
  | nil => exact fun _ _ => rfl
  | cons p rest ih =>
    intro front h
    have hnames : ∀ other, other ∈ (front ++ p :: rest).names ↔
        other ∈ front.names ∨ other = p.1 ∨ other ∈ Keyed.names rest := by
      simp [Keyed.names]
    have hstep : splitStep split (front.parted split) p = parted split (front.put p.1 p.2) := by
      refine (Named.parted_put (f := Neg.neg) (h.mono fun other hother => ?_) p.2).symm
      rw [hnames]
      exact (List.mem_cons.mp hother).elim (fun heq => Or.inr (Or.inl heq)) Or.inl
    rw [List.foldl_cons, List.foldl_cons, hstep]
    refine ih _ (h.mono fun other hother => ?_)
    rw [hnames]
    rw [Keyed.names, List.map_append, List.mem_append] at hother
    rcases hother with hput | hrest
    · rcases Keyed.mem_names_put.mp hput with hfront | heq
      · exact Or.inl hfront
      · exact Or.inr (Or.inl heq)
    · exact Or.inr (Or.inr hrest)

theorem nonzero_partEntries (p : String × Rat) :
    nonzero (Named.partEntries Neg.neg split p) = if p.2 = 0 then [] else Named.partEntries Neg.neg split p := by
  unfold Named.partEntries nonzero
  split <;> split <;> simp_all

theorem parted_nonzero (terms : Terms) : terms.nonzero.parted split = (terms.parted split).nonzero := by
  induction terms with
  | nil => rfl
  | cons p rest ih =>
    have hsplit : nonzero (parted split (p :: rest)) =
        nonzero (Named.partEntries Neg.neg split p) ++ nonzero (parted split rest) := List.filter_append _ _
    rw [hsplit, nonzero_partEntries, ← ih]
    by_cases hp : p.2 = 0
    · simp [hp, nonzero]
    · simp [hp, nonzero, Named.parted_cons]

theorem parted_scale (terms : Terms) (q : Rat) : (terms.scale q).parted split = (terms.parted split).scale q := by
  unfold parted Named.parted scale
  rw [List.flatMap_map, List.map_flatMap]
  congr 1
  funext p
  unfold Named.partEntries
  split <;> simp

theorem coefficient_parted (h : Unsplit split terms.names) (hname : Whole split name) :
    coefficient (terms.parted split) name = terms.coefficient name := by
  have hall : Unsplit split (name :: terms.names) := unsplit_cons.mpr ⟨hname.unsplit, h⟩
  have hmem : name ∈ partsOf split name := hname.partsOf ▸ List.mem_singleton_self name
  unfold coefficient
  rw [Named.find?_parted hall hmem]
  cases terms.find? name with
  | none => rfl
  | some q => simp [Named.partEntries, hname.not_mem, Keyed.find?]

theorem parted_put (h : Unsplit split terms.names) (hname : Whole split name) (q : Rat) :
    parted split (terms.put name q) = (terms.parted split).put name q :=
  (Named.parted_put (unsplit_cons.mpr ⟨hname.unsplit, h⟩) q).trans (if_neg hname.not_mem)

end Terms

/-! ## Rows that are read -/

section Reading

theorem Named.names_of_convert {α β : Type} {f : α → Except NumberFault β} {given : Named α} {made : Named β}
    (h : given.convert f = .ok made) : made.names = given.names := by
  unfold Keyed.convert at h
  induction given generalizing made with
  | nil => exact Except.ok.inj h ▸ rfl
  | cons p rest ih =>
    rw [List.mapM_cons] at h
    obtain ⟨first, hfirst, h⟩ := ok_of_bind h
    obtain ⟨value, -, hfirst⟩ := ok_of_bind hfirst
    obtain ⟨others, hothers, h⟩ := ok_of_bind h
    obtain rfl := Except.ok.inj hfirst
    obtain rfl := Except.ok.inj h
    exact congrArg (p.1 :: ·) (ih hothers)

/-- A row that is read from different names holds each of them at most once, and none with coefficient zero. -/
theorem Row.distinct_and_nonzero_of_read {given : Named Operand} {cmp : String} {rhs : Operand}
    {label : Option String} {r : Row} (h : Row.read given cmp rhs label = .ok r) (hgiven : given.names.Nodup) :
    r.names.Nodup ∧ ∀ p ∈ r.terms, p.2 ≠ 0 := by
  unfold Row.read at h
  split at h
  · obtain ⟨terms, hterms, h⟩ := ok_of_bind h
    obtain ⟨value, -, h⟩ := ok_of_bind h
    obtain rfl := Except.ok.inj h
    cases hread : readTerms given with
    | error e =>
      rw [hread] at hterms
      cases hterms
    | ok made =>
      rw [hread] at hterms
      obtain rfl := Except.ok.inj hterms
      refine ⟨Row.nodup_names_of (Named.names_of_convert hread ▸ hgiven) _ _ _, fun p hp => ?_⟩
      simpa using (List.mem_filter.mp hp).2
  · cases h

end Reading

/-! ## Rows over parts -/

/-- The row holds each name once, none with coefficient zero, and no name is that of a part. -/
structure Row.Separate (split : List String) (r : Row) : Prop where
  nodup : r.names.Nodup
  nonzero : r.terms.nonzero = r.terms
  unsplit : Unsplit split r.names

/-- The second row is the first one over parts. -/
structure Row.Over (split : List String) (r r' : Row) : Prop where
  separate : r.Separate split
  eq : r' = ⟨r.terms.parted split, r.cmp, r.rhs, r.label⟩

/-- A name of a form over parts is integral exactly when the name that it comes from is. -/
def IntegralOver (split integral integral' : List String) : Prop :=
  ∀ name, Unsplit split [name] → ∀ k ∈ partsOf split name, k ∈ integral' ↔ name ∈ integral

namespace Row

variable {r r' : Row} {integral integral' : List String}

theorem Over.cmp (h : r.Over split r') : r'.cmp = r.cmp := h.eq ▸ rfl

theorem Over.rhs (h : r.Over split r') : r'.rhs = r.rhs := h.eq ▸ rfl

theorem Over.terms (h : r.Over split r') : r'.terms = r.terms.parted split := h.eq ▸ rfl

theorem Over.strict (h : r.Over split r') : r'.strict = r.strict := congrArg Comparator.strict h.cmp

section Built

variable {terms : Terms}

/-- A row that is built over a form and the row that is built over the form's parts. -/
theorem over_of (hnd : terms.names.Nodup) (h : Unsplit split terms.names) (cmp : Comparator) (rhs : Rat)
    (label : Option String) : (of terms cmp rhs label).Over split (of (terms.parted split) cmp rhs label) := by
  refine ⟨⟨Terms.nodup_nonzero hnd, ?_, h.mono fun _ hname => terms.names_nonzero_sublist.subset hname⟩, ?_⟩
  · simp [of, Terms.nonzero, List.filter_filter]
  · rw [of, of, ← Terms.parted_nonzero]

/-- A row over names that are whole is its own row over parts. -/
theorem over_self (h : ∀ name ∈ terms.names, Whole split name) (hnd : terms.names.Nodup) (cmp : Comparator)
    (rhs : Rat) (label : Option String) : (of terms cmp rhs label).Over split (of terms cmp rhs label) := by
  have hunsplit : Unsplit split terms.names :=
    fun name hname => (h name hname).unsplit name (List.mem_singleton_self name)
  have hover := over_of hnd hunsplit cmp rhs label
  rwa [Terms.parted, Named.parted_of_not_mem fun name hname => (h name hname).not_mem] at hover

end Built

/-- Splitting a row gives the row over parts. -/
theorem Separate.over_split (h : r.Separate split) : r.Over split (r.split split) := by
  refine ⟨h, ?_⟩
  unfold Row.split
  split
  · rw [withTerms, of, Terms.split_eq_parted h.nodup h.unsplit, ← Terms.parted_nonzero, h.nonzero]
  · rename_i hno
    have hnone : ∀ name ∈ r.terms.names, name ∉ split := fun name hname hsplit =>
      hno (List.any_eq_true.mpr ⟨name, hname, decide_eq_true hsplit⟩)
    rw [Terms.parted, Named.parted_of_not_mem hnone]

theorem Over.eq_split (h : r.Over split r') : r' = r.split split :=
  h.eq.trans h.separate.over_split.eq.symm

/-! ### Operations -/

theorem Over.withBound (h : r.Over split r') (cmp : Comparator) (rhs : Rat) :
    (r.withBound cmp rhs).Over split (r'.withBound cmp rhs) := by
  obtain ⟨hsep, rfl⟩ := h
  exact over_of hsep.nodup hsep.unsplit _ _ _

theorem Over.negated (h : r.Over split r') : r.negated.Over split r'.negated := by
  obtain ⟨hsep, rfl⟩ := h
  exact over_of hsep.nodup hsep.unsplit _ _ _

theorem Over.withCmp (h : r.Over split r') (cmp : Comparator) : (r.withCmp cmp).Over split (r'.withCmp cmp) := by
  obtain ⟨hsep, rfl⟩ := h
  exact over_of hsep.nodup hsep.unsplit _ _ _

theorem Over.halves (h : r.Over split r') : List.Forall₂ (Over split) r.halves r'.halves := by
  unfold Row.halves
  rw [h.cmp]
  split
  · exact .cons (h.withCmp _) (.cons (h.withCmp _) .nil)
  · exact .cons h .nil

/-- A row that is built by a write of a whole name. -/
theorem over_put {terms : Terms} (hnd : terms.names.Nodup) (h : Unsplit split terms.names)
    (hname : Whole split name) (q : Rat) (cmp : Comparator) (rhs : Rat) :
    (of (terms.put name q) cmp rhs none).Over split (of ((terms.parted split).put name q) cmp rhs none) := by
  rw [← Terms.parted_put h hname]
  refine over_of (Keyed.nodup_put hnd _ _) (fun other hother => ?_) _ _ _
  rcases Keyed.mem_names_put.mp hother with hold | rfl
  · exact h other hold
  · exact hname.unsplit other (List.mem_singleton_self other)

theorem Over.withCondition (h : r.Over split r') (hname : Whole split name) (q shift : Rat) :
    (r.withCondition name q shift).Over split (r'.withCondition name q shift) := by
  obtain ⟨hsep, rfl⟩ := h
  exact over_put hsep.nodup hsep.unsplit hname _ _ _

/-- A scaled row with a write of a whole name. -/
theorem Over.scale_put (h : r.Over split r') (hname : Whole split name) (sign q : Rat) (cmp : Comparator)
    (rhs : Rat) : (of ((r.terms.scale sign).put name q) cmp rhs none).Over split
      (of ((r'.terms.scale sign).put name q) cmp rhs none) := by
  obtain ⟨hsep, rfl⟩ := h
  rw [← Terms.parted_scale]
  refine over_put (Terms.nodup_scale hsep.nodup sign) ?_ hname _ _ _
  rw [Terms.names_scale]
  exact hsep.unsplit

theorem Over.isIntegral (h : r.Over split r') (hint : IntegralOver split integral integral') :
    r'.isIntegral integral' = r.isIntegral integral := by
  obtain ⟨hsep, rfl⟩ := h
  have hempty : (r.terms.parted split).isEmpty = r.terms.isEmpty := by
    cases r.terms with
    | nil => rfl
    | cons p rest =>
      rw [Terms.parted, Named.parted_cons, Named.partEntries]
      split <;> rfl
  have hentries : ∀ p ∈ r.terms, ((Named.partEntries Neg.neg split p).all fun e =>
      integral'.contains e.1 && e.2.den == 1) = (integral.contains p.1 && p.2.den == 1) := by
    intro p hp
    have hmem := hint p.1 (hsep.unsplit.of_mem (List.mem_map_of_mem hp))
    unfold partsOf at hmem
    unfold Named.partEntries
    split
    · rename_i hsplit
      rw [if_pos hsplit] at hmem
      simp [hmem]
    · rename_i hsplit
      rw [if_neg hsplit] at hmem
      simp [hmem]
  unfold Row.isIntegral
  rw [hempty, Terms.parted, Named.parted, List.all_flatMap]
  congr 1
  rw [Bool.eq_iff_iff, List.all_eq_true, List.all_eq_true]
  exact forall₂_congr fun p hp => by rw [hentries p hp]

theorem Over.loosen? (h : r.Over split r') (hint : IntegralOver split integral integral') :
    Option.Rel (Over split) (r.loosen? integral) (r'.loosen? integral') := by
  unfold Row.loosen?
  rw [h.isIntegral hint, h.cmp, h.rhs]
  split
  · split
    · exact .some (h.withBound _ _)
    · exact .some (h.withBound _ _)
    · exact .none
  · exact .none

theorem Over.tighten (h : r.Over split r') (hint : IntegralOver split integral integral') :
    (r.tighten integral).Over split (r'.tighten integral') := by
  unfold Row.tighten
  rw [h.strict, h.isIntegral hint, h.cmp, h.rhs]
  split
  · split
    · exact h.withBound _ _
    · exact h.withBound _ _
  · exact h

end Row

end ExactLP
