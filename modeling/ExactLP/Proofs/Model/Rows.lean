import ExactLP.Model.Row
import ExactLP.Proofs.Named
import Mathlib.Algebra.BigOperators.Group.Finset.Basic
import Mathlib.Algebra.Order.Field.Rat
import Mathlib.Tactic.Ring

/-!
# Proofs.Model.Rows — forms as sums, rows read inclusively

* `Terms.sum_coefficient`: a form that holds each name once is the sum over any names that contain its own.
* `Row.holdsInclusive_of`, `Row.holdsInclusive_normalized`: what a row says when its comparator is read as
  inclusive.
* `Terms.nodup_nonzero`, `Terms.nodup_scale`: what keeps the names of a form apart.
-/

open Finset

namespace ExactLP

variable {terms : Terms} {v : Assignment}

/-! ## Names -/

section Names

namespace Terms

theorem names_nonzero_sublist (terms : Terms) : terms.nonzero.names.Sublist terms.names :=
  List.filter_sublist.map Prod.fst

theorem nodup_nonzero (h : terms.names.Nodup) : terms.nonzero.names.Nodup :=
  h.sublist terms.names_nonzero_sublist

theorem names_scale (terms : Terms) (k : Rat) : (terms.scale k).names = terms.names :=
  List.map_map

theorem nodup_scale (h : terms.names.Nodup) (k : Rat) : (terms.scale k).names.Nodup :=
  (names_scale terms k).symm ▸ h

end Terms

end Names

/-! ## Values of forms -/

section Values

namespace Terms

theorem coefficient_cons (p : String × Rat) (rest : Terms) (name : String) :
    coefficient (p :: rest) name = if p.1 = name then p.2 else coefficient rest name := by
  unfold coefficient
  rw [Keyed.find?]
  split <;> rfl

/-- A form with each name once, as a sum over names that contain its own. -/
theorem sum_coefficient (hnd : terms.names.Nodup) {S : Finset String} (hsub : ∀ name ∈ terms.names, name ∈ S) :
    ∑ name ∈ S, terms.coefficient name * v name = terms.eval v := by
  induction terms with
  | nil => exact sum_eq_zero fun name _ => zero_mul (v name)
  | cons p rest ih =>
    rw [Keyed.names, List.map_cons, List.nodup_cons] at hnd
    have hmem : p.1 ∈ S := hsub p.1 List.mem_cons_self
    have hrest := ih hnd.2 fun name h => hsub name (List.mem_cons_of_mem _ h)
    rw [← add_sum_erase S _ hmem, coefficient_of_not_mem hnd.1, zero_mul, zero_add] at hrest
    rw [← add_sum_erase S _ hmem, coefficient_cons, if_pos rfl, eval_cons, ← hrest]
    refine congrArg _ (sum_congr rfl ?_)
    intro name hname
    rw [coefficient_cons, if_neg (ne_of_mem_erase hname).symm]

/-- The value of a form depends on its own names only. -/
theorem eval_congr {w : Assignment} (h : ∀ name ∈ terms.names, v name = w name) :
    terms.eval v = terms.eval w := by
  induction terms with
  | nil => rfl
  | cons p rest ih =>
    rw [eval_cons, eval_cons, h p.1 List.mem_cons_self, ih fun name hname => h name (List.mem_cons_of_mem _ hname)]

/-- A write changes the value by what the coefficient of the name changes. -/
theorem eval_put (terms : Terms) (name : String) (c : Rat) (v : Assignment) :
    eval (terms.put name c) v = terms.eval v + (c - terms.coefficient name) * v name := by
  induction terms with
  | nil =>
    show c * v name + 0 = 0 + (c - 0) * v name
    rw [sub_zero, add_comm]
  | cons p rest ih =>
    obtain ⟨k, q⟩ := p
    rw [Keyed.put, coefficient_cons, eval_cons]
    by_cases heq : k = name
    · rw [if_pos heq, if_pos heq, eval_cons, heq]
      ring
    · rw [if_neg heq, if_neg heq, eval_cons, ih, add_assoc]

end Terms

end Values

/-! ## The inclusive reading -/

section Inclusive

theorem Comparator.inclusive_mirrored (c : Comparator) : c.mirrored.inclusive = c.inclusive.mirrored := by
  cases c <;> rfl

namespace Row

theorem holdsInclusive_of (terms : Terms) (cmp : Comparator) (rhs : Rat) (label : Option String)
    (v : Assignment) : (of terms cmp rhs label).HoldsInclusive v ↔ cmp.inclusive.Holds (terms.eval v) rhs := by
  rw [← Terms.eval_nonzero terms v]
  rfl

theorem holdsInclusive_mirrored (r : Row) (v : Assignment) :
    r.mirrored.HoldsInclusive v ↔ r.HoldsInclusive v := by
  rw [mirrored, holdsInclusive_of, Comparator.inclusive_mirrored, Terms.eval_scale, mul_neg_one]
  exact Comparator.holds_mirrored _ _ _

theorem holdsInclusive_normalized (r : Row) (v : Assignment) :
    r.normalized.HoldsInclusive v ↔ r.HoldsInclusive v := by
  unfold normalized
  split
  · exact holdsInclusive_mirrored r v
  · exact Iff.rfl

theorem nodup_names_of (h : terms.names.Nodup) (cmp : Comparator) (rhs : Rat) (label : Option String) :
    (of terms cmp rhs label).names.Nodup :=
  Terms.nodup_nonzero h

theorem nodup_names_normalized {r : Row} (h : r.names.Nodup) : r.normalized.names.Nodup := by
  unfold normalized
  split
  · exact nodup_names_of (Terms.nodup_scale h (-1)) _ _ _
  · exact h

theorem label_normalized (r : Row) : r.normalized.label = r.label := by
  unfold normalized
  split <;> rfl

theorem cmp_normalized_ne_eq {r : Row} (h : r.cmp ≠ .eq) : r.normalized.cmp ≠ .eq := by
  unfold normalized
  split
  · show r.cmp.mirrored ≠ .eq
    cases hcmp : r.cmp <;> simp_all [Comparator.mirrored]
  · exact h

/-- A normalized row has no names of its own. -/
theorem mem_names_of_normalized {r : Row} {name : String} (h : name ∈ r.normalized.names) : name ∈ r.names := by
  unfold normalized at h
  split at h
  · have hscaled := (Terms.names_nonzero_sublist _).subset h
    rwa [Terms.names_scale] at hscaled
  · exact h

end Row

end Inclusive

end ExactLP
