import ExactLP.Proofs.Model.Rows
import ExactLP.Standard.Split
import Mathlib.Algebra.Ring.Subring.Basic
import Mathlib.Algebra.Ring.Int.Defs
import Mathlib.Tactic.Ring

/-!
# Proofs.Standard.Split — forms over the parts of split variables

* `positivePart_inj`, `positivePart_ne_negativePart`: no two parts share a name.
* `Terms.eval_split_single`: a single variable over its parts has the value that `joinParts` reads back.
* `Terms.eval_split`, `Row.holds_split`: where no part has the name of a variable, so have forms and rows.
* `Terms.integral_split`: a form with integer coefficients over variables with integer values has an integer
  value over the parts, even where a part has the name of another variable.
-/

namespace ExactLP

variable {terms : Terms} {split : List String} {z : Assignment} {name other : String} {c : Rat}

/-! ## Names of parts -/

section Parts

theorem positivePart_inj (h : positivePart name = positivePart other) : name = other :=
  (String.append_left_inj _).mp h

theorem negativePart_inj (h : negativePart name = negativePart other) : name = other :=
  (String.append_left_inj _).mp h

theorem positivePart_ne_negativePart (name other : String) : positivePart name ≠ negativePart other := by
  intro h
  have hlast := congrArg (fun s : String => s.toList.getLast?) h
  simp [positivePart, negativePart] at hlast

end Parts

/-! ## Writes of parts -/

section Writes

namespace Terms

theorem coefficient_put (terms : Terms) (name other : String) (c : Rat) :
    coefficient (terms.put name c) other = if name = other then c else terms.coefficient other := by
  unfold coefficient
  split
  · rename_i h
    rw [h, Keyed.find?_put_self]
    rfl
  · rename_i h
    rw [Keyed.find?_put_of_ne terms h]

/-- What one term writes. -/
def splitStep (split : List String) (result : Terms) (p : String × Rat) : Terms :=
  if p.1 ∈ split then (result.put (positivePart p.1) p.2).put (negativePart p.1) (-p.2) else result.put p.1 p.2

theorem split_eq_foldl (terms : Terms) (split : List String) :
    terms.split split = terms.foldl (splitStep split) [] := rfl

theorem nodup_splitStep {result : Terms} (h : result.names.Nodup) (p : String × Rat) :
    (splitStep split result p).names.Nodup := by
  unfold splitStep
  split
  · exact Keyed.nodup_put (Keyed.nodup_put h _ _) _ _
  · exact Keyed.nodup_put h _ _

/-- A form over parts holds each name once. -/
theorem nodup_split (terms : Terms) (split : List String) : (terms.split split).names.Nodup := by
  rw [split_eq_foldl]
  suffices hgen : ∀ result : Terms, result.names.Nodup → (terms.foldl (splitStep split) result).names.Nodup from
    hgen [] List.nodup_nil
  induction terms with
  | nil => exact fun result h => h
  | cons p rest ih => exact fun result h => ih _ (nodup_splitStep h p)

theorem eval_split_single (name : String) (c : Rat) (split : List String) (z : Assignment) :
    eval (Terms.split [(name, c)] split) z = c * joinParts split z name := by
  rw [split_eq_foldl, List.foldl_cons, List.foldl_nil, splitStep, joinParts]
  split
  · rw [eval_put, eval_put, coefficient_put, if_neg (positivePart_ne_negativePart name name)]
    show 0 + (c - 0) * z (positivePart name) + (-c - 0) * z (negativePart name) = _
    ring
  · rw [eval_put]
    show 0 + (c - 0) * z name = _
    ring

/-- The names that a term writes. -/
def partsOf (split : List String) (name : String) : List String :=
  if name ∈ split then [positivePart name, negativePart name] else [name]

theorem mem_names_splitStep {result : Terms} {p : String × Rat} {k : String} :
    k ∈ (splitStep split result p).names ↔ k ∈ result.names ∨ k ∈ partsOf split p.1 := by
  unfold splitStep partsOf
  split
  · rw [Keyed.mem_names_put, Keyed.mem_names_put, or_assoc]
    simp
  · rw [Keyed.mem_names_put]
    simp

/-- What a term over new names adds. -/
theorem eval_splitStep {result : Terms} {p : String × Rat} (h : ∀ k ∈ partsOf split p.1, k ∉ result.names) :
    (splitStep split result p).eval z = result.eval z + p.2 * joinParts split z p.1 := by
  unfold splitStep joinParts
  unfold partsOf at h
  split
  · rename_i hsplit
    rw [if_pos hsplit] at h
    have hpos := coefficient_of_not_mem (h (positivePart p.1) (by simp))
    have hneg := coefficient_of_not_mem (h (negativePart p.1) (by simp))
    rw [eval_put, eval_put, coefficient_put, if_neg (positivePart_ne_negativePart p.1 p.1), hpos, hneg]
    ring
  · rename_i hsplit
    rw [if_neg hsplit] at h
    rw [eval_put, coefficient_of_not_mem (h p.1 (by simp)), sub_zero]

end Terms

/-- None of some names is that of a part. -/
def Unsplit (split names : List String) : Prop :=
  ∀ name ∈ names, ∀ x ∈ split, name ≠ positivePart x ∧ name ≠ negativePart x

instance (split names : List String) : Decidable (Unsplit split names) :=
  inferInstanceAs (Decidable (∀ name ∈ names, ∀ x ∈ split, _ ∧ _))

/-- The parts of different names are different, where no name is that of a part. -/
theorem Unsplit.partsOf_disjoint {names : List String} (h : Unsplit split names) (hname : name ∈ names)
    (hother : other ∈ names) (hne : name ≠ other) {k : String} (hk : k ∈ Terms.partsOf split name)
    (hk' : k ∈ Terms.partsOf split other) : False := by
  unfold Terms.partsOf at hk hk'
  by_cases hs : name ∈ split
  · rw [if_pos hs] at hk
    by_cases hs' : other ∈ split
    · rw [if_pos hs'] at hk'
      simp only [List.mem_cons, List.not_mem_nil, or_false] at hk hk'
      rcases hk with rfl | rfl
      · rcases hk' with heq | heq
        · exact hne (positivePart_inj heq)
        · exact positivePart_ne_negativePart _ _ heq
      · rcases hk' with heq | heq
        · exact positivePart_ne_negativePart _ _ heq.symm
        · exact hne (negativePart_inj heq)
    · rw [if_neg hs', List.mem_singleton] at hk'
      simp only [List.mem_cons, List.not_mem_nil, or_false] at hk
      have hno := h other hother name hs
      rcases hk with heq | heq
      · exact hno.1 (hk'.symm.trans heq)
      · exact hno.2 (hk'.symm.trans heq)
  · rw [if_neg hs, List.mem_singleton] at hk
    by_cases hs' : other ∈ split
    · rw [if_pos hs'] at hk'
      simp only [List.mem_cons, List.not_mem_nil, or_false] at hk'
      have hno := h name hname other hs'
      rcases hk' with heq | heq
      · exact hno.1 (hk.symm.trans heq)
      · exact hno.2 (hk.symm.trans heq)
    · rw [if_neg hs', List.mem_singleton] at hk'
      exact hne (hk.symm.trans hk')

namespace Terms

/-- A form over parts has the value that the parts stand for, where no part has the name of a variable. -/
theorem eval_split (hnd : terms.names.Nodup) (h : Unsplit split terms.names) (z : Assignment) :
    (terms.split split).eval z = terms.eval (joinParts split z) := by
  suffices hgen : ∀ (rest result : Terms), (∀ name ∈ rest.names, name ∈ terms.names) → rest.names.Nodup →
      (∀ name ∈ rest.names, ∀ k ∈ partsOf split name, k ∉ result.names) →
      (rest.foldl (splitStep split) result).eval z = result.eval z + rest.eval (joinParts split z) by
    rw [split_eq_foldl, hgen terms [] (fun _ => id) hnd fun _ _ _ _ => List.not_mem_nil]
    exact zero_add _
  intro rest
  induction rest with
  | nil => exact fun result _ _ _ => (add_zero _).symm
  | cons p rest ih =>
    intro result hsub hnd hnew
    rw [Keyed.names, List.map_cons, List.nodup_cons] at hnd
    have hp : p.1 ∈ terms.names := hsub p.1 List.mem_cons_self
    rw [List.foldl_cons, ih (splitStep split result p) (fun name hname => hsub name (List.mem_cons_of_mem _ hname))
      hnd.2, eval_splitStep (hnew p.1 List.mem_cons_self), eval_cons, add_assoc]
    intro name hname k hk hmem
    rcases mem_names_splitStep.mp hmem with hold | hwritten
    · exact hnew name (List.mem_cons_of_mem _ hname) k hk hold
    · refine h.partsOf_disjoint (hsub name (List.mem_cons_of_mem _ hname)) hp ?_ hk hwritten
      rintro rfl
      exact hnd.1 hname

end Terms

theorem joinParts_of_not_mem (h : name ∉ split) (z : Assignment) : joinParts split z name = z name := by
  rw [joinParts, if_neg h]

/-! ## Assignments of parts -/

section Assignments

variable {positive negative own : Assignment}

/-- The assignment with given values for the parts that are added, for those that are subtracted and for all
other names. -/
def ofParts (split : List String) (positive negative own : Assignment) : Assignment := fun name =>
  match split.find? fun x => positivePart x == name with
  | some x => positive x
  | none =>
    match split.find? fun x => negativePart x == name with
    | some x => negative x
    | none => own name

theorem ofParts_positivePart (h : name ∈ split) :
    ofParts split positive negative own (positivePart name) = positive name := by
  unfold ofParts
  cases hfind : split.find? fun x => positivePart x == positivePart name with
  | none => exact absurd (List.find?_eq_none.mp hfind name h) (by simp)
  | some x =>
    have heq : positivePart x = positivePart name := by simpa using List.find?_some hfind
    exact congrArg positive (positivePart_inj heq)

theorem ofParts_negativePart (h : name ∈ split) :
    ofParts split positive negative own (negativePart name) = negative name := by
  have hnone : (split.find? fun x => positivePart x == negativePart name) = none :=
    List.find?_eq_none.mpr fun x _ => by simpa using positivePart_ne_negativePart x name
  unfold ofParts
  rw [hnone]
  cases hfind : split.find? fun x => negativePart x == negativePart name with
  | none => exact absurd (List.find?_eq_none.mp hfind name h) (by simp)
  | some x =>
    have heq : negativePart x = negativePart name := by simpa using List.find?_some hfind
    exact congrArg negative (negativePart_inj heq)

theorem ofParts_of_ne (h : ∀ x ∈ split, name ≠ positivePart x ∧ name ≠ negativePart x) :
    ofParts split positive negative own name = own name := by
  have hpos : (split.find? fun x => positivePart x == name) = none :=
    List.find?_eq_none.mpr fun x hx => by simpa using (h x hx).1.symm
  have hneg : (split.find? fun x => negativePart x == name) = none :=
    List.find?_eq_none.mpr fun x hx => by simpa using (h x hx).2.symm
  unfold ofParts
  rw [hpos, hneg]

/-- What an assignment of parts stands for. -/
theorem joinParts_ofParts (h : ∀ x ∈ split, name ≠ positivePart x ∧ name ≠ negativePart x) :
    joinParts split (ofParts split positive negative own) name =
      if name ∈ split then positive name - negative name else own name := by
  unfold joinParts
  split
  · rename_i hname
    rw [ofParts_positivePart hname, ofParts_negativePart hname]
  · exact ofParts_of_ne h

theorem ofParts_nonneg (hpos : ∀ x ∈ split, 0 ≤ positive x) (hneg : ∀ x ∈ split, 0 ≤ negative x)
    (hown : 0 ≤ own name) : 0 ≤ ofParts split positive negative own name := by
  unfold ofParts
  split
  · rename_i x hfind
    exact hpos x (List.mem_of_find?_eq_some hfind)
  · split
    · rename_i x hfind
      exact hneg x (List.mem_of_find?_eq_some hfind)
    · exact hown

end Assignments

namespace Row

variable {r : Row}

theorem cmp_split (r : Row) (split : List String) : (r.split split).cmp = r.cmp := by
  unfold Row.split
  split <;> rfl

theorem rhs_split (r : Row) (split : List String) : (r.split split).rhs = r.rhs := by
  unfold Row.split
  split <;> rfl

theorem label_split (r : Row) (split : List String) : (r.split split).label = r.label := by
  unfold Row.split
  split <;> rfl

/-- The left side of a row over parts. -/
theorem eval_split (hnd : r.names.Nodup) (h : Unsplit split r.names) (z : Assignment) :
    (r.split split).terms.eval z = r.terms.eval (joinParts split z) := by
  unfold Row.split
  split
  · exact (Terms.eval_nonzero _ z).trans (Terms.eval_split hnd h z)
  · rename_i hno
    apply Terms.eval_congr
    intro name hname
    refine (joinParts_of_not_mem (fun hsplit => hno ?_) z).symm
    exact List.any_eq_true.mpr ⟨name, hname, decide_eq_true hsplit⟩

theorem holds_split (hnd : r.names.Nodup) (h : Unsplit split r.names) (z : Assignment) :
    (r.split split).Holds z ↔ r.Holds (joinParts split z) := by
  rw [Holds, Holds, cmp_split, rhs_split, eval_split hnd h]

theorem holdsInclusive_split (hnd : r.names.Nodup) (h : Unsplit split r.names) (z : Assignment) :
    (r.split split).HoldsInclusive z ↔ r.HoldsInclusive (joinParts split z) := by
  rw [HoldsInclusive, HoldsInclusive, cmp_split, rhs_split, eval_split hnd h]

end Row

end Writes

/-! ## Integer values -/

section Integral

/-- The numbers that are integers. -/
abbrev integers : Subring Rat := (Int.castRingHom Rat).range

theorem mem_integers_iff {q : Rat} : q ∈ integers ↔ q.den = 1 := by
  constructor
  · rintro ⟨n, rfl⟩
    rfl
  · intro h
    exact ⟨q.num, Rat.den_eq_one_iff q |>.mp h⟩

namespace Terms

/-- What the writes of `done` leave: an integer value, integer coefficients, and no names but parts of `done`
and variables with integer values. -/
structure IntegralOver (split : List String) (z : Assignment) (done : List String) (result : Terms) : Prop where
  value : result.eval z ∈ integers
  coefficient : ∀ name, result.coefficient name ∈ integers
  name : ∀ name ∈ result.names, z name ∈ integers ∨
    ∃ x ∈ done, name = positivePart x ∨ name = negativePart x

variable {result : Terms} {names : List String}

/-- What a write over a name takes away. -/
theorem IntegralOver.term (h : result.IntegralOver split z names)
    (hname : ∀ x ∈ names, name ≠ positivePart x ∧ name ≠ negativePart x) :
    result.coefficient name * z name ∈ integers := by
  by_cases hmem : name ∈ result.names
  · rcases h.name name hmem with hz | ⟨x, hx, heq | heq⟩
    · exact mul_mem (h.coefficient name) hz
    · exact absurd heq (hname x hx).1
    · exact absurd heq (hname x hx).2
  · rw [coefficient_of_not_mem hmem, zero_mul]
    exact zero_mem _

theorem IntegralOver.step (h : result.IntegralOver split z names) (hnew : name ∉ names) (hc : c ∈ integers)
    (hz : joinParts split z name ∈ integers) :
    (splitStep split result (name, c)).IntegralOver split z (names ++ [name]) := by
  unfold joinParts at hz
  unfold splitStep
  dsimp only
  split at hz
  · rename_i hsplit
    rw [if_pos hsplit]
    have hpos : result.coefficient (positivePart name) * z (positivePart name) ∈ integers :=
      h.term fun x hx => ⟨fun heq => hnew (positivePart_inj heq ▸ hx), positivePart_ne_negativePart _ _⟩
    have hneg : result.coefficient (negativePart name) * z (negativePart name) ∈ integers :=
      h.term fun x hx => ⟨(positivePart_ne_negativePart _ _).symm, fun heq => hnew (negativePart_inj heq ▸ hx)⟩
    refine ⟨?_, ?_, ?_⟩
    · have hvalue : eval (Keyed.put (Keyed.put result (positivePart name) c) (negativePart name) (-c)) z =
          result.eval z + c * (z (positivePart name) - z (negativePart name)) -
            result.coefficient (positivePart name) * z (positivePart name) -
            result.coefficient (negativePart name) * z (negativePart name) := by
        rw [eval_put, eval_put, coefficient_put, if_neg (positivePart_ne_negativePart name name)]
        ring
      rw [hvalue]
      exact sub_mem (sub_mem (add_mem h.value (mul_mem hc hz)) hpos) hneg
    · intro k
      rw [coefficient_put, coefficient_put]
      split_ifs
      · exact neg_mem hc
      · exact hc
      · exact h.coefficient k
    · intro k hk
      rw [Keyed.mem_names_put, Keyed.mem_names_put] at hk
      rcases hk with (hk | rfl) | rfl
      · exact (h.name k hk).imp_right fun ⟨x, hx, hpart⟩ => ⟨x, List.mem_append_left _ hx, hpart⟩
      · exact Or.inr ⟨name, by simp, Or.inl rfl⟩
      · exact Or.inr ⟨name, by simp, Or.inr rfl⟩
  · rename_i hsplit
    rw [if_neg hsplit]
    refine ⟨?_, ?_, ?_⟩
    · rw [eval_put]
      exact add_mem h.value (mul_mem (sub_mem hc (h.coefficient name)) hz)
    · intro k
      rw [coefficient_put]
      split_ifs
      · exact hc
      · exact h.coefficient k
    · intro k hk
      rw [Keyed.mem_names_put] at hk
      rcases hk with hk | rfl
      · exact (h.name k hk).imp_right fun ⟨x, hx, hpart⟩ => ⟨x, List.mem_append_left _ hx, hpart⟩
      · exact Or.inl hz

/-- A form with integer coefficients over variables with integer values has an integer value over the
parts. -/
theorem integral_split (hnd : terms.names.Nodup) (hc : ∀ p ∈ terms, p.2 ∈ integers)
    (hz : ∀ p ∈ terms, joinParts split z p.1 ∈ integers) : (terms.split split).eval z ∈ integers := by
  suffices hgen : ∀ (names : List String) (result : Terms), (∀ name ∈ terms.names, name ∉ names) →
      result.IntegralOver split z names → (terms.foldl (splitStep split) result).eval z ∈ integers from
    hgen [] [] (fun _ _ => List.not_mem_nil)
      ⟨zero_mem _, fun _ => zero_mem _, fun _ h => absurd h List.not_mem_nil⟩
  induction terms with
  | nil => exact fun names result _ h => h.value
  | cons p rest ih =>
    intro names result hdisj h
    rw [Keyed.names, List.map_cons, List.nodup_cons] at hnd
    have hstep := h.step (hdisj p.1 List.mem_cons_self) (hc p List.mem_cons_self) (hz p List.mem_cons_self)
    refine ih hnd.2 (fun q hq => hc q (List.mem_cons_of_mem _ hq))
      (fun q hq => hz q (List.mem_cons_of_mem _ hq)) (names ++ [p.1]) _ ?_ hstep
    intro name hname
    rw [List.mem_append, List.mem_singleton, not_or]
    exact ⟨hdisj name (List.mem_cons_of_mem _ hname), fun heq => hnd.1 (heq ▸ hname)⟩

end Terms

end Integral

end ExactLP
