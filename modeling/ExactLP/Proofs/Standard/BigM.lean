import ExactLP.Proofs.Standard.Parts

/-!
# Proofs.Standard.BigM — the constant over parts

The estimate of the constant looks at magnitudes only.  Over parts each of its two tables has the value of a name
under both of the name's parts, so the largest product is the same, and so is the constant.

* `raised`: the fold by which both tables are made; `raised_parted`: the table over parts.
* `bigM_pos`: the constant is positive.
* `bigM_over`: the constant is the same over parts.
-/

namespace ExactLP

variable {split : List String} {name k : String} {table own reach : Named Rat} {terms : Terms} {w : Rat → Rat}

/-! ## Numbers -/

section Numbers

theorem magnitude_neg (q : Rat) : magnitude (-q) = magnitude q := by
  unfold magnitude
  grind

theorem larger_self_right (a b : Rat) : larger (larger a b) b = larger a b := by
  unfold larger
  grind

end Numbers

/-! ## Tables of largest values -/

section Tables

/-- Raises the value of every name of a form to the weight of its coefficient. -/
def raised (w : Rat → Rat) (table : Named Rat) (terms : Terms) : Named Rat :=
  terms.foldl (fun table p => table.raise p.1 (w p.2)) table

theorem mem_names_raised (hname : name ∈ (raised w table terms).names) : name ∈ table.names ∨ name ∈ terms.names := by
  induction terms generalizing table with
  | nil => exact Or.inl hname
  | cons p rest ih =>
    rcases ih hname with hput | hrest
    · refine (Keyed.mem_names_put.mp hput).imp_right fun heq => ?_
      rw [heq]
      exact List.mem_cons_self
    · exact Or.inr (List.mem_cons_of_mem _ hrest)

/-- Both parts of a name have its value. -/
theorem find?_parted_id (h : Unsplit split (name :: table.names)) (hk : k ∈ Terms.partsOf split name) :
    (table.parted id split).find? k = table.find? name := by
  rw [Named.find?_parted h hk]
  unfold Terms.partsOf at hk
  cases table.find? name with
  | none => rfl
  | some q =>
    unfold Named.partEntries
    rw [Option.bind_some]
    split at hk
    · rename_i hsplit
      rw [if_pos hsplit]
      rcases List.mem_pair.mp hk with rfl | rfl <;> simp [Keyed.find?, positivePart_ne_negativePart]
    · rename_i hsplit
      rw [if_neg hsplit, List.mem_singleton.mp hk]
      simp [Keyed.find?]

/-- Raising the parts of a name raises the name. -/
theorem raised_partEntries (h : Unsplit split (name :: table.names)) (hw : ∀ c, w (-c) = w c) (c : Rat) :
    raised w (table.parted id split) (Named.partEntries Neg.neg split (name, c)) =
      Named.parted id split (table.raise name (w c)) := by
  unfold Named.raise
  rw [Named.parted_put h]
  unfold Named.putParts Named.partEntries
  split
  · rename_i hsplit
    have hpos := find?_parted_id (k := positivePart name) h (by simp [Terms.partsOf, hsplit])
    have hneg := find?_parted_id (k := negativePart name) h (by simp [Terms.partsOf, hsplit])
    simp only [raised, List.foldl_cons, List.foldl_nil, Named.raise, hw, hpos, id_eq,
      Keyed.find?_put_of_ne _ (positivePart_ne_negativePart name name), hneg]
  · rename_i hsplit
    have hown := find?_parted_id (k := name) h (by simp [Terms.partsOf, hsplit])
    simp only [raised, List.foldl_cons, List.foldl_nil, Named.raise, hown]

theorem raised_append (front back : Terms) : raised w table (front ++ back) = raised w (raised w table front) back :=
  List.foldl_append

/-- A table raised by a form over parts is the raised table over parts. -/
theorem raised_parted (hw : ∀ c, w (-c) = w c) (htable : Unsplit split table.names)
    (hterms : Unsplit split terms.names) :
    raised w (table.parted id split) (terms.parted split) = Named.parted id split (raised w table terms) := by
  induction terms generalizing table with
  | nil => rfl
  | cons p rest ih =>
    obtain ⟨hp, hrest⟩ := unsplit_cons.mp hterms
    have hraise : Unsplit split (table.raise p.1 (w p.2)).names := fun name hname => by
      rcases Keyed.mem_names_put.mp hname with hold | rfl
      · exact htable name hold
      · exact hp _ (List.mem_singleton_self _)
    rw [Terms.parted, Named.parted_cons, raised_append, raised_partEntries (unsplit_cons.mpr ⟨hp, htable⟩) hw]
    exact ih hraise hrest

variable {rows rows' : List Row}

/-- The table of some rows over parts, where weights ignore signs and depend on a row's right side only. -/
theorem foldl_raised_over (weight : Row → Rat → Rat) (hw : ∀ row c, weight row (-c) = weight row c)
    (hweight : ∀ row row' : Row, row'.rhs = row.rhs → weight row' = weight row)
    (h : List.Forall₂ (Row.Over split) rows rows') (table : Named Rat) (htable : Unsplit split table.names) :
    rows'.foldl (fun table row => raised (weight row) table row.terms) (table.parted id split) =
        Named.parted id split (rows.foldl (fun table row => raised (weight row) table row.terms) table) ∧
      Unsplit split (rows.foldl (fun table row => raised (weight row) table row.terms) table).names := by
  induction h generalizing table with
  | nil => exact ⟨rfl, htable⟩
  | @cons row row' rest rest' hrow _ ih =>
    have hraised : Unsplit split (raised (weight row) table row.terms).names := fun name hname => by
      rcases mem_names_raised hname with hold | hnew
      · exact htable name hold
      · exact hrow.separate.unsplit name hnew
    rw [List.foldl_cons, List.foldl_cons, hrow.terms, hweight row row' hrow.rhs,
      raised_parted (hw row) htable hrow.separate.unsplit]
    exact ih _ hraised

theorem ownCoefficients_over (h : List.Forall₂ (Row.Over split) rows rows') :
    ownCoefficients rows' = (ownCoefficients rows).parted id split ∧ Unsplit split (ownCoefficients rows).names :=
  foldl_raised_over (fun _ => magnitude) (fun _ => magnitude_neg) (fun _ _ _ => rfl) h []
    fun _ hno => absurd hno List.not_mem_nil

theorem reaches_over (h : List.Forall₂ (Row.Over split) rows rows') :
    reaches rows' = (reaches rows).parted id split ∧ Unsplit split (reaches rows).names :=
  foldl_raised_over (fun row c => magnitude (row.rhs / c)) (fun _ _ => by rw [div_neg, magnitude_neg])
    (fun _ _ hrhs => by rw [hrhs]) h [] fun _ hno => absurd hno List.not_mem_nil

end Tables

/-! ## The constant -/

section Constant

theorem bigM_pos (operands others : List Row) : 0 < bigM operands others := by
  unfold bigM larger bigMFallback
  dsimp only
  split
  · rename_i hpos
    split
    · rename_i hlt
      exact hpos.trans hlt
    · exact hpos
  · norm_num

theorem largest_parted {g g' : String × Rat → Rat}
    (h : ∀ p ∈ table, ∀ k ∈ Terms.partsOf split p.1, g' (k, p.2) = g p) :
    largest ((table.parted id split).map g') = largest (table.map g) := by
  unfold largest
  suffices hgen : ∀ start, ((table.parted id split).map g').foldl larger start = (table.map g).foldl larger start from
    hgen 0
  induction table with
  | nil => exact fun _ => rfl
  | cons p rest ih =>
    intro start
    have hp := h p List.mem_cons_self
    -- the second part repeats the number of the first, which raises nothing
    have hentries : ((Named.partEntries id split p).map g').foldl larger start = larger start (g p) := by
      unfold Named.partEntries
      unfold Terms.partsOf at hp
      split
      · rename_i hsplit
        rw [if_pos hsplit] at hp
        simp [hp, larger_self_right]
      · rename_i hsplit
        rw [if_neg hsplit] at hp
        exact congrArg (larger start) (hp p.1 (List.mem_singleton_self _))
    rw [Named.parted_cons, List.map_append, List.foldl_append, hentries, List.map_cons, List.foldl_cons]
    exact ih (fun q hq => h q (List.mem_cons_of_mem _ hq)) _

variable {operands operands' others others' : List Row}

/-- The constant is the same over parts. -/
theorem bigM_over (hoperands : List.Forall₂ (Row.Over split) operands operands')
    (hothers : List.Forall₂ (Row.Over split) others others') : bigM operands' others' = bigM operands others := by
  obtain ⟨hown, hownNames⟩ := ownCoefficients_over hoperands
  obtain ⟨hreach, hreachNames⟩ := reaches_over hothers
  have hvalues : largest (((ownCoefficients operands).parted id split).map Prod.snd) =
      largest ((ownCoefficients operands).map Prod.snd) :=
    largest_parted fun _ _ _ _ => rfl
  have hproducts : largest (((ownCoefficients operands).parted id split).map fun p =>
        p.2 * (((reaches others).parted id split).find? p.1).getD 0) =
      largest ((ownCoefficients operands).map fun p => p.2 * ((reaches others).find? p.1).getD 0) := by
    refine largest_parted fun p hp k hk => ?_
    have hunsplit := unsplit_cons.mpr ⟨hownNames.of_mem (List.mem_map_of_mem hp), hreachNames⟩
    dsimp only
    rw [find?_parted_id hunsplit hk]
  unfold bigM
  rw [hown, hreach]
  exact congrArg₂ (fun estimate own => if 0 < estimate then larger estimate own else bigMFallback) hproducts hvalues

end Constant

end ExactLP
