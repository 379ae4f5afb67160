import ExactLP.Proofs.Equations.Feasible
import ExactLP.Proofs.Model.Rows
import Mathlib.Algebra.BigOperators.Fin
import Mathlib.Tactic.Linarith

/-!
# Proofs.Equations.Points — points of the equations from assignments

An assignment that satisfies some rows, strict comparators read as inclusive, gives a feasible point of their
equations: the surplus or excess column of a row has the gap between its two sides.

* `dot`: the sum of the products of two lists, entry by entry.
* `Row.gap`, `slacks`: the gap between the sides of a row, and the values of its auxiliary columns.
* `exists_feasible`: the point, which has the value of the assignment.
-/

open Finset

namespace ExactLP

/-! ## Sums of products -/

section Dot

/-- The sum of the products of the entries at the same positions. -/
def dot (xs ys : List Rat) : Rat := (List.zipWith (· * ·) xs ys).sum

variable {xs ys xs' ys' : List Rat}

theorem dot_append (h : xs.length = ys.length) : dot (xs ++ xs') (ys ++ ys') = dot xs ys + dot xs' ys' := by
  rw [dot, List.zipWith_append h, List.sum_append, dot, dot]

theorem dot_nil (xs : List Rat) : dot xs [] = 0 := by
  rw [dot, List.zipWith_nil_right, List.sum_nil]

theorem dot_cons (x y : Rat) (xs ys : List Rat) : dot (x :: xs) (y :: ys) = x * y + dot xs ys := by
  rw [dot, List.zipWith_cons_cons, List.sum_cons, dot]

theorem dot_comm (xs ys : List Rat) : dot xs ys = dot ys xs := by
  rw [dot, dot, List.zipWith_comm]
  simp only [mul_comm]

theorem dot_of_zero (h : ∀ x ∈ xs, x = 0) (ys : List Rat) : dot xs ys = 0 := by
  induction xs generalizing ys with
  | nil => rfl
  | cons x rest ih =>
    cases ys with
    | nil => exact dot_nil _
    | cons y ys =>
      rw [dot_cons, h x List.mem_cons_self, zero_mul, zero_add]
      exact ih (fun a ha => h a (List.mem_cons_of_mem _ ha)) ys

theorem dot_map_map {α : Type} (f g : α → Rat) (l : List α) :
    dot (l.map f) (l.map g) = (l.map fun a => f a * g a).sum := by
  rw [dot, List.zipWith_map, List.zipWith_self]

/-- A sum over positions as a sum of products. -/
theorem sum_range_getD (xs ys : List Rat) :
    ∑ j ∈ range ys.length, xs.getD j 0 * ys.getD j 0 = dot xs ys := by
  induction ys generalizing xs with
  | nil => exact (dot_nil xs).symm
  | cons y ys ih =>
    rw [List.length_cons, sum_range_succ']
    cases xs with
    | nil =>
      have hzero : dot [] (y :: ys) = 0 := rfl
      rw [hzero]
      simp
    | cons x xs =>
      rw [dot_cons, add_comm, ← ih xs]
      rfl

end Dot

/-- The gap between the two sides of a row: what is left below the right side of a row that bounds from above, what
is over at one that bounds from below, and nothing at an equality. -/
def Row.gap (row : Row) (z : Assignment) : Rat :=
  match row.cmp with
  | .eq => 0
  | .lt | .le => row.rhs - row.terms.eval z
  | .gt | .ge => row.terms.eval z - row.rhs

namespace Equations

variable {e : Equations} {unknowns : List String} {rows : List Row} {own : List (Column × Rat)}
  {aux : List (List (Column × Rat))} {i j k : Nat} {c : Column} {q v : Rat} {row : Row} {z : Assignment}
  {names condition split : List String} {internalFrom : Option Int}

/-! ## The auxiliaries of one row -/

section Slacks

/-- The values of the auxiliary columns of a row: the gap between its sides, and zero for the columns that
stand for nothing. -/
def slacks (row : Row) (z : Assignment) : List Rat :=
  match row.cmp with
  | .eq => [0, 0]
  | .lt | .le => [row.rhs - row.terms.eval z]
  | .gt | .ge => [row.terms.eval z - row.rhs, 0]

theorem length_slacks (row : Row) (z : Assignment) (label : String) (internal : Bool) :
    (slacks row z).length = (auxiliaries row.cmp label internal).length := by
  unfold slacks
  cases row.cmp <;> rfl

/-- The first auxiliary of a row has the gap between its sides for its value. -/
theorem slacks_getD_zero (row : Row) (z : Assignment) : (slacks row z).getD 0 0 = row.gap z := by
  unfold slacks Row.gap
  cases row.cmp <;> rfl

theorem slacks_nonneg (h : row.HoldsInclusive z) (hq : q ∈ slacks row z) : 0 ≤ q := by
  obtain ⟨terms, cmp, rhs, label⟩ := row
  cases cmp <;>
    simp only [Row.HoldsInclusive, Comparator.inclusive, Comparator.Holds] at h <;>
    simp only [slacks, List.mem_cons, List.not_mem_nil, or_false] at hq
  · linarith
  · linarith
  · linarith [hq.elim id id]
  · rcases hq with rfl | rfl
    · linarith
    · exact le_rfl
  · rcases hq with rfl | rfl
    · linarith
    · exact le_rfl

/-- The auxiliaries of a row close the gap between its sides. -/
theorem dot_slacks (h : row.HoldsInclusive z) (label : String) (internal : Bool) :
    dot ((auxiliaries row.cmp label internal).map Prod.snd) (slacks row z) = row.rhs - row.terms.eval z := by
  obtain ⟨terms, cmp, rhs, rowLabel⟩ := row
  cases cmp <;>
    simp only [Row.HoldsInclusive, Comparator.inclusive, Comparator.Holds] at h <;>
    simp only [auxiliaries, slacks, List.map_cons, List.map_nil, dot_cons, dot_nil] <;>
    linarith

/-- A column that stands for nothing has value zero. -/
theorem slacks_forbidden {label : String} {internal : Bool}
    (h : ((c, q), v) ∈ (auxiliaries row.cmp label internal).zip (slacks row z))
    (hc : c.role.isForbidden = true) : v = 0 := by
  obtain ⟨terms, cmp, rhs, rowLabel⟩ := row
  cases cmp <;>
    simp only [auxiliaries, slacks, List.zip_cons_cons, List.zip_nil_left, List.mem_cons, Prod.mk.injEq,
      List.not_mem_nil, or_false] at h
  · rw [h.1.1] at hc
    cases hc
  · rw [h.1.1] at hc
    cases hc
  · rcases h with ⟨-, hv⟩ | ⟨-, hv⟩
    · exact hv
    · exact hv
  all_goals
    rcases h with ⟨⟨rfl, -⟩, -⟩ | ⟨-, hv⟩
    · cases hc
    · exact hv

theorem slacks_getD_forbidden {label : String} {internal : Bool}
    (hk : (auxiliaries row.cmp label internal)[k]? = some (c, q)) (hc : c.role.isForbidden = true)
    (z : Assignment) : (slacks row z).getD k 0 = 0 := by
  have hlt : k < (slacks row z).length := by
    rw [length_slacks row z label internal]
    exact (List.getElem?_eq_some_iff.mp hk).1
  rw [List.getD_eq_getElem _ _ hlt]
  exact slacks_forbidden
    (List.mem_of_getElem? (List.getElem?_zip_eq_some.mpr ⟨hk, List.getElem?_eq_getElem hlt⟩)) hc

end Slacks

/-! ## The point of an assignment -/

section Point

/-- The values of all columns: the assignment, then the auxiliaries of each row. -/
def entries (unknowns : List String) (rows : List Row) (z : Assignment) : List Rat :=
  unknowns.map z ++ (rows.map (slacks · z)).flatten

/-- The sum over the unknowns is the value of the form. -/
theorem dot_unknowns {terms : Terms} (hnd : terms.names.Nodup) (hunknowns : unknowns.Nodup)
    (hsub : ∀ name ∈ terms.names, name ∈ unknowns) (z : Assignment) :
    dot (unknowns.map terms.coefficient) (unknowns.map z) = terms.eval z := by
  rw [dot_map_map, ← List.sum_toFinset _ hunknowns]
  exact terms.sum_coefficient hnd fun name hname => List.mem_toFinset.mpr (hsub name hname)

/-- Of two flattened lists only one block counts where the others of the first are zero. -/
theorem dot_flatten {blocks blocks' : List (List Rat)} {block block' : List Rat}
    (hlen : blocks.map List.length = blocks'.map List.length) (hi : blocks[i]? = some block)
    (hi' : blocks'[i]? = some block')
    (hzero : ∀ (b : Nat) (xs : List Rat), b ≠ i → blocks[b]? = some xs → ∀ x ∈ xs, x = 0) :
    dot blocks.flatten blocks'.flatten = dot block block' := by
  have hown : block.length = block'.length := by
    have hget := congrArg (fun lengths : List Nat => lengths[i]?) hlen
    simpa [hi, hi'] using hget
  have hbefore : ∀ x ∈ (blocks.take i).flatten, x = 0 := by
    intro x hx
    obtain ⟨xs, hxs, hmem⟩ := List.mem_flatten.mp hx
    obtain ⟨b, hb⟩ := List.mem_iff_getElem?.mp hxs
    rw [List.getElem?_take] at hb
    split at hb
    · rename_i hlt
      exact hzero b xs hlt.ne hb x hmem
    · cases hb
  have hafter : ∀ x ∈ (blocks.drop (i + 1)).flatten, x = 0 := by
    intro x hx
    obtain ⟨xs, hxs, hmem⟩ := List.mem_flatten.mp hx
    obtain ⟨b, hb⟩ := List.mem_iff_getElem?.mp hxs
    rw [List.getElem?_drop] at hb
    exact hzero (i + 1 + b) xs (by omega) hb x hmem
  rw [flatten_eq_around hi, flatten_eq_around hi', dot_append (blockStart_congr hlen i), dot_append hown,
    dot_of_zero hbefore, dot_of_zero hafter, zero_add, add_zero]

variable (h : e.LaidOut names rows unknowns aux)
include h

theorem LaidOut.map_length_slacks (z : Assignment) :
    aux.map List.length = (rows.map (slacks · z)).map List.length := by
  refine List.ext_getElem? ?_
  intro i
  rw [List.getElem?_map, List.getElem?_map, List.getElem?_map]
  cases hrow : rows[i]? with
  | none =>
    rw [List.getElem?_eq_none_iff, ← h.length_aux, ← List.getElem?_eq_none_iff] at hrow
    rw [hrow]
    rfl
  | some row =>
    obtain ⟨label, internal, haux⟩ := h.getElem?_aux hrow
    rw [haux]
    exact congrArg some (length_slacks row z label internal).symm

theorem LaidOut.length_entries (z : Assignment) : (entries unknowns rows z).length = e.columns.length := by
  rw [entries, List.length_append, List.length_map, ← length_flatten_congr (h.map_length_slacks z),
    h.length_columns]

theorem LaidOut.mem_unknowns {name : String} :
    name ∈ unknowns ↔ name ∈ names ∨ ∃ row ∈ rows, name ∈ row.names := by
  rw [h.unknowns_eq, mem_firstOccurrences, List.mem_append, List.mem_flatMap]

theorem LaidOut.nodup_unknowns : unknowns.Nodup :=
  h.unknowns_eq ▸ nodup_firstOccurrences _

/-- The left side of a row's equation: the form, and the row's own block of auxiliaries. -/
theorem LaidOut.dot_equation_blocks {blocks : List (List Rat)} {block : List Rat}
    (hi : rows[i]? = some row) (hnd : row.names.Nodup) (hlen : aux.map List.length = blocks.map List.length)
    (haux : aux[i]? = some own) (hblock : blocks[i]? = some block) :
    dot (equation unknowns aux i row) (unknowns.map z ++ blocks.flatten) =
      row.terms.eval z + dot (own.map Prod.snd) block := by
  have hown : (auxiliaryPart aux i)[i]? = some (own.map Prod.snd) := by
    rw [auxiliaryPart, List.getElem?_mapIdx, haux]
    simp
  have hzero : ∀ (b : Nat) (xs : List Rat), b ≠ i → (auxiliaryPart aux i)[b]? = some xs → ∀ x ∈ xs, x = 0 := by
    intro b xs hne hb x hx
    rw [auxiliaryPart, List.getElem?_mapIdx] at hb
    obtain ⟨own, -, rfl⟩ := Option.map_eq_some_iff.mp hb
    obtain ⟨p, -, rfl⟩ := List.mem_map.mp hx
    exact if_neg hne.symm
  have hlen := (map_length_auxiliaryPart aux i).trans hlen
  have hunknowns : dot (unknowns.map row.terms.coefficient) (unknowns.map z) = row.terms.eval z :=
    dot_unknowns hnd h.nodup_unknowns
      (fun name hname => h.mem_unknowns.mpr (Or.inr ⟨row, List.mem_of_getElem? hi, hname⟩)) z
  have hflat : dot ((auxiliaryPart aux i).flatten ++ [row.rhs]) blocks.flatten = dot (own.map Prod.snd) block := by
    rw [← List.append_nil blocks.flatten, dot_append (length_flatten_congr hlen), dot_nil, add_zero,
      dot_flatten hlen hown hblock hzero]
  rw [equation_eq, dot_append (by rw [List.length_map, List.length_map]), hunknowns, hflat]

/-- The entries satisfy the equation of a row that the assignment satisfies. -/
theorem LaidOut.dot_equation (hi : rows[i]? = some row) (hnd : row.names.Nodup) (hz : row.HoldsInclusive z) :
    dot (equation unknowns aux i row) (entries unknowns rows z) = row.rhs := by
  obtain ⟨label, internal, haux⟩ := h.getElem?_aux hi
  have hslacks : (rows.map (slacks · z))[i]? = some (slacks row z) := by
    rw [List.getElem?_map, hi]
    rfl
  rw [entries, h.dot_equation_blocks hi hnd (h.map_length_slacks z) haux hslacks, dot_slacks hz]
  exact add_sub_cancel _ _

/-- The entries have the value of the assignment. -/
theorem LaidOut.dot_objective {objective : Terms} (hnd : objective.names.Nodup)
    (hsub : ∀ name ∈ objective.names, name ∈ unknowns) (z : Assignment) :
    dot (e.columns.map fun c => objective.coefficient c.name) (entries unknowns rows z) = objective.eval z := by
  obtain ⟨condition, split, hcol⟩ := h.columns_eq
  have hunknowns : (unknowns.map (variableColumn condition split)).map (fun c => objective.coefficient c.name) =
      unknowns.map objective.coefficient := by
    rw [List.map_map]
    exact List.map_congr_left fun name _ => congrArg objective.coefficient (name_variableColumn _ _ name)
  have hzero : ∀ q ∈ (aux.flatten.map Prod.fst).map (fun c => objective.coefficient c.name), q = 0 := by
    intro q hq
    obtain ⟨c, hc, rfl⟩ := List.mem_map.mp hq
    obtain ⟨p, hp⟩ := List.mem_iff_getElem?.mp hc
    have hget : e.columns[unknowns.length + p]? = some c := by
      rw [hcol, List.getElem?_append_right (by simp), List.length_map, Nat.add_sub_cancel_left, hp]
    exact Terms.coefficient_of_not_mem fun hmem =>
      h.auxiliary_not_mem_unknowns hget (Nat.le_add_right _ _) (hsub _ hmem)
  rw [hcol, List.map_append, hunknowns, entries, dot_append (by rw [List.length_map, List.length_map]),
    dot_of_zero hzero, add_zero]
  exact dot_unknowns hnd h.nodup_unknowns hsub z

theorem LaidOut.entries_auxiliary (hi : rows[i]? = some row) (haux : aux[i]? = some own) (hk : k < own.length)
    (z : Assignment) :
    (entries unknowns rows z).getD (unknowns.length + (blockStart aux i + k)) 0 = (slacks row z).getD k 0 := by
  obtain ⟨label, internal, hlabel⟩ := h.getElem?_aux hi
  have hown : own = auxiliaries row.cmp label internal := Option.some.inj (haux.symm.trans hlabel)
  have hslacks : (rows.map (slacks · z))[i]? = some (slacks row z) := by
    rw [List.getElem?_map, hi]
    rfl
  have hlt : k < (slacks row z).length := by rwa [length_slacks row z label internal, ← hown]
  rw [List.getD_eq_getElem?_getD, entries, List.getElem?_append_right (by simp), List.length_map,
    Nat.add_sub_cancel_left, blockStart_congr (h.map_length_slacks z), getElem?_flatten hslacks hlt,
    List.getD_eq_getElem?_getD]

omit h in
theorem entries_nonneg (hz : ∀ row ∈ rows, row.HoldsInclusive z) (hnn : ∀ name ∈ unknowns, 0 ≤ z name)
    (hq : q ∈ entries unknowns rows z) : 0 ≤ q := by
  rcases List.mem_append.mp hq with hmem | hmem
  · obtain ⟨name, hname, rfl⟩ := List.mem_map.mp hmem
    exact hnn name hname
  · obtain ⟨block, hblock, hin⟩ := List.mem_flatten.mp hmem
    obtain ⟨row, hrow, rfl⟩ := List.mem_map.mp hblock
    exact slacks_nonneg (hz row hrow) hin

/-- The columns that stand for nothing have value zero. -/
theorem LaidOut.entries_forbidden (hj : e.columns[j]? = some c) (hc : c.role.isForbidden = true)
    (z : Assignment) : (entries unknowns rows z).getD j 0 = 0 := by
  have hge : unknowns.length ≤ j := by
    by_contra hlt
    rw [Role.isForbidden_of_isVariable ((h.isVariable_iff hj).mpr (not_le.mp hlt))] at hc
    cases hc
  obtain ⟨i, row, label, internal, k, q, hrow, haux, hk, rfl⟩ := h.exists_auxiliary hj hge
  rw [h.entries_auxiliary hrow haux (List.getElem?_eq_some_iff.mp hk).1]
  exact slacks_getD_forbidden hk hc z

/-- An assignment that satisfies the rows gives a feasible point. -/
theorem LaidOut.feasible_entries (hnd : ∀ row ∈ rows, row.names.Nodup) (hz : ∀ row ∈ rows, row.HoldsInclusive z)
    (hnn : ∀ name ∈ unknowns, 0 ≤ z name) : e.Feasible fun j => (entries unknowns rows z).getD j 0 := by
  refine ⟨?_, fun j c hj hc => h.entries_forbidden hj hc z, ?_⟩
  · intro j hj
    rw [← h.length_entries z] at hj
    rw [List.getD_eq_getElem _ _ hj]
    exact entries_nonneg hz hnn (List.getElem_mem hj)
  · intro line hline
    obtain ⟨i, hi⟩ := List.mem_iff_getElem?.mp hline
    have hlt : i < rows.length := h.length_rows ▸ (List.getElem?_eq_some_iff.mp hi).1
    have hrow := List.getElem?_eq_getElem hlt
    have hmem := List.getElem_mem hlt
    obtain rfl := Option.some.inj (hi.symm.trans (h.getElem?_rows hrow))
    rw [← h.length_entries z, sum_range_getD, h.dot_equation hrow (hnd _ hmem) (hz _ hmem), h.length_entries,
      h.length_columns, equation_rhs]

theorem LaidOut.value_entries {objective : Terms} (hnd : objective.names.Nodup)
    (hsub : ∀ name ∈ objective.names, name ∈ unknowns) (z : Assignment) :
    (e.value objective fun j => (entries unknowns rows z).getD j 0) = objective.eval z := by
  rw [← h.dot_objective hnd hsub z, ← sum_range_getD, h.length_entries, value, sum_range]
  apply sum_congr rfl
  intro j _
  rw [List.getD_eq_getElem (e.columns.map _) 0 (by simp), List.getElem_map]
  rfl

end Point

/-- An assignment that satisfies some rows, read inclusively, gives a feasible point of their equations with
the same value. -/
theorem exists_feasible {objective : Terms}
    (hrows : ofRows objective.names rows condition split internalFrom = .ok e)
    (hobj : objective.names.Nodup) (hnd : ∀ row ∈ rows, row.names.Nodup)
    (hz : ∀ row ∈ rows, row.HoldsInclusive z)
    (hnn : ∀ name, name ∈ objective.names ∨ (∃ row ∈ rows, name ∈ row.names) → 0 ≤ z name) :
    ∃ x, e.Feasible x ∧ e.value objective x = objective.eval z := by
  obtain ⟨unknowns, aux, h⟩ := exists_laidOut hrows
  refine ⟨_, h.feasible_entries ?_ ?_ ?_,
    h.value_entries hobj (fun _ hname => h.mem_unknowns_of_objective hname) z⟩
  · exact List.forall_mem_map.mpr fun row hrow => Row.nodup_names_normalized (hnd row hrow)
  · exact List.forall_mem_map.mpr fun row hrow => (row.holdsInclusive_normalized z).mpr (hz row hrow)
  · intro name hname
    refine hnn name ((h.mem_unknowns.mp hname).imp_right ?_)
    rintro ⟨row, hrow, hmem⟩
    obtain ⟨r, hr, rfl⟩ := List.mem_map.mp hrow
    exact ⟨r, hr, Row.mem_names_of_normalized hmem⟩

end Equations

end ExactLP
