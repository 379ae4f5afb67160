import ExactLP.Proofs.Equations.Points
import Mathlib.Data.List.SplitLengths

/-!
# Proofs.Equations.Projection — the feasible points of the equations, over the variables

The feasible points of the equations of some rows are exactly the nonnegative assignments that satisfy the rows,
strict comparators read as inclusive, each with the auxiliaries that close its gaps.

* `Gives`: the point has the values of an assignment in the variable columns.
* `eq_slacks_of_gap`, `holdsInclusive_of_slacks`: auxiliaries that close the gap of a row are its slacks, and not
  negative only where it holds.
* `LaidOut.sum_equation`, `LaidOut.ownValues_of_feasible`: the equation of a row at a point, and what it leaves for the
  auxiliaries.
* `feasible_iff`: both directions.
* `Based`, `based_of_ofRows`: the right sides are not negative and the basic columns form an identity.
-/

open Finset

namespace ExactLP.Equations

variable {e : Equations} {objective condition split unknowns : List String} {internalFrom : Option Int}
  {rows : List Row} {row : Row} {own : List (Column × Rat)} {aux : List (List (Column × Rat))}
  {block : List Rat} {i j : Nat} {c : Column} {z : Assignment} {x : ColumnPoint}

/-- The variable columns have the values of the assignment. -/
def Gives (e : Equations) (x : ColumnPoint) (z : Assignment) : Prop :=
  ∀ (j : Nat) (c : Column), e.columns[j]? = some c → c.role.isVariable = true → x j = z c.name

/-! ## The gap of one row -/

section Gap

variable {label : String} {internal : Bool}

/-- Values of the auxiliaries of a row that make up for the gap between its sides, zero where they stand for
nothing, are its slacks. -/
theorem eq_slacks_of_gap (hlen : block.length = (auxiliaries row.cmp label internal).length)
    (hzero : ∀ (k : Nat) (c : Column) (q : Rat), (auxiliaries row.cmp label internal)[k]? = some (c, q) →
      c.role.isForbidden = true → block.getD k 0 = 0)
    (hgap : row.terms.eval z + dot ((auxiliaries row.cmp label internal).map Prod.snd) block = row.rhs) :
    block = slacks row z := by
  obtain ⟨terms, cmp, rhs, rowLabel⟩ := row
  cases cmp <;> dsimp only [auxiliaries] at hlen hzero hgap <;> dsimp only [slacks]
  case lt | le =>
    obtain ⟨s, rfl⟩ := List.length_eq_one_iff.mp hlen
    simp only [List.map_cons, List.map_nil, dot_cons, dot_nil] at hgap
    rw [← hgap, one_mul, add_zero, add_sub_cancel_left]
  case gt | ge =>
    obtain ⟨s, a, rfl⟩ := List.length_eq_two.mp hlen
    obtain rfl : a = 0 := hzero 1 _ _ rfl rfl
    simp only [List.map_cons, List.map_nil, dot_cons, dot_nil] at hgap
    have hs : s = terms.eval z - rhs := by linarith
    rw [hs]
  case eq =>
    obtain ⟨p, a, rfl⟩ := List.length_eq_two.mp hlen
    obtain rfl : p = 0 := hzero 0 _ _ rfl rfl
    obtain rfl : a = 0 := hzero 1 _ _ rfl rfl
    rfl

/-- Slacks that make up for the gap between the sides of a row are nonnegative only where the row holds. -/
theorem holdsInclusive_of_slacks (hnn : ∀ q ∈ slacks row z, 0 ≤ q)
    (hgap : row.terms.eval z + dot ((auxiliaries row.cmp label internal).map Prod.snd) (slacks row z) = row.rhs) :
    row.HoldsInclusive z := by
  obtain ⟨terms, cmp, rhs, rowLabel⟩ := row
  unfold Row.HoldsInclusive
  cases cmp <;> dsimp only [auxiliaries, slacks] at hnn hgap <;>
    dsimp only [Comparator.inclusive, Comparator.Holds]
  case lt | le => exact sub_nonneg.mp (List.forall_mem_singleton.mp hnn)
  case gt | ge => exact sub_nonneg.mp (List.forall_mem_cons.mp hnn).1
  case eq =>
    simp only [List.map_cons, List.map_nil, dot_cons, dot_nil] at hgap
    linarith

end Gap

/-! ## Points over the variables -/

section Points

/-- The values of a point at the auxiliaries of row `i`. -/
def ownValues (unknowns : List String) (aux : List (List (Column × Rat))) (i : Nat) (own : List (Column × Rat))
    (x : ColumnPoint) : List Rat :=
  (List.range own.length).map fun k => x (unknowns.length + (blockStart aux i + k))

theorem length_ownValues (unknowns : List String) (aux : List (List (Column × Rat))) (i : Nat)
    (own : List (Column × Rat)) (x : ColumnPoint) : (ownValues unknowns aux i own x).length = own.length := by
  rw [ownValues, List.length_map, List.length_range]

theorem ownValues_getD {k : Nat} (hk : k < own.length) :
    (ownValues unknowns aux i own x).getD k 0 = x (unknowns.length + (blockStart aux i + k)) := by
  rw [List.getD_eq_getElem _ _ (by rwa [length_ownValues])]
  exact (List.getElem_map _).trans (by rw [List.getElem_range])

variable (h : e.LaidOut objective rows unknowns aux)
include h

/-- The values of a point, in the order of the columns: the unknowns, then block by block. -/
theorem LaidOut.values_eq (hgives : e.Gives x z) :
    (List.range e.columns.length).map x = unknowns.map z ++
      ((aux.map List.length).splitLengths
        ((List.range aux.flatten.length).map fun p => x (unknowns.length + p))).flatten := by
  rw [List.flatten_splitLengths _ _ (by rw [List.length_map, List.length_range, List.length_flatten]),
    h.length_columns, List.range_add, List.map_append, List.map_map]
  refine congrArg (· ++ _) (List.ext_getElem (by simp) ?_)
  intro j hj hj'
  rw [List.length_map] at hj'
  obtain ⟨c, hc, hname, hvar⟩ := h.getElem?_columns_unknown hj'
  rw [List.getElem_map, List.getElem_range, List.getElem_map, hgives j c hc hvar, hname]

/-- The left side of a row's equation at a point: the form, and the row's own auxiliaries. -/
theorem LaidOut.sum_equation (hgives : e.Gives x z) (hi : rows[i]? = some row) (hnd : row.names.Nodup)
    (haux : aux[i]? = some own) :
    ∑ j ∈ range e.columns.length, (equation unknowns aux i row).getD j 0 * x j =
      row.terms.eval z + dot (own.map Prod.snd) (ownValues unknowns aux i own x) := by
  set tail := (List.range aux.flatten.length).map fun p => x (unknowns.length + p) with htail
  set blocks := (aux.map List.length).splitLengths tail
  have htotal : (aux.map List.length).sum = tail.length := by
    rw [htail, List.length_map, List.length_range, List.length_flatten]
  have hlen : aux.map List.length = blocks.map List.length :=
    (List.map_splitLengths_length _ _ htotal.le).symm
  have hflat : blocks.flatten = tail := List.flatten_splitLengths _ _ htotal.ge
  have hlt : i < blocks.length := by
    rw [List.length_splitLengths, List.length_map]
    exact (List.getElem?_eq_some_iff.mp haux).1
  have hblock := List.getElem?_eq_getElem hlt
  have hown : blocks[i].length = own.length := by
    have hget := congrArg (fun lengths : List Nat => lengths[i]?) hlen
    simp only [List.getElem?_map, haux, hblock, Option.map_some, Option.some.injEq] at hget
    exact hget.symm
  -- an entry of the block is the value of the auxiliary column at its place
  have hvalues : blocks[i] = ownValues unknowns aux i own x := by
    refine List.ext_getElem (by rw [hown, length_ownValues]) fun k hk hk' => ?_
    have hget := getElem?_flatten hblock hk
    have hpos := blockStart_add_lt haux (hown ▸ hk)
    rw [hflat, ← blockStart_congr hlen i, htail, List.getElem?_map, List.getElem?_range hpos,
      List.getElem?_eq_getElem hk] at hget
    rw [← List.getD_eq_getElem _ 0 hk', ownValues_getD (hown ▸ hk)]
    exact (Option.some.inj hget).symm
  have hpoint := h.values_eq hgives
  have hsum := sum_range_getD (equation unknowns aux i row) ((List.range e.columns.length).map x)
  rw [hpoint, h.dot_equation_blocks hi hnd hlen haux hblock, ← hpoint, List.length_map, List.length_range, hvalues]
    at hsum
  rw [← hsum]
  refine sum_congr rfl fun j hj => ?_
  have hj : j < ((List.range e.columns.length).map x).length := by simpa using hj
  rw [List.getD_eq_getElem (List.map x _) _ hj, List.getElem_map, List.getElem_range]

/-- At a feasible point the auxiliaries of a row are its slacks. -/
theorem LaidOut.ownValues_of_feasible (hx : e.Feasible x) (hgives : e.Gives x z) (hi : rows[i]? = some row)
    (hnd : row.names.Nodup) (haux : aux[i]? = some own) :
    ownValues unknowns aux i own x = slacks row z ∧
      row.terms.eval z + dot (own.map Prod.snd) (slacks row z) = row.rhs := by
  obtain ⟨label, internal, hlabel⟩ := h.getElem?_aux hi
  obtain rfl : own = auxiliaries row.cmp label internal := Option.some.inj (haux.symm.trans hlabel)
  have hline := hx.holds _ (List.mem_of_getElem? (h.getElem?_rows hi))
  rw [h.sum_equation hgives hi hnd haux, h.length_columns, equation_rhs] at hline
  have hslacks : ownValues unknowns aux i (auxiliaries row.cmp label internal) x = slacks row z := by
    refine eq_slacks_of_gap (length_ownValues _ _ _ _ _) (fun k c q hk hc => ?_) hline
    rw [ownValues_getD (List.getElem?_eq_some_iff.mp hk).1]
    exact hx.zero _ c (h.getElem?_columns_auxiliary haux hk) hc
  rw [hslacks] at hline
  exact ⟨hslacks, hline⟩

/-- A feasible point satisfies the rows over its variables. -/
theorem LaidOut.holdsInclusive_of_feasible (hx : e.Feasible x) (hgives : e.Gives x z) (hrow : row ∈ rows)
    (hnd : row.names.Nodup) : row.HoldsInclusive z := by
  obtain ⟨i, hi⟩ := List.mem_iff_getElem?.mp hrow
  obtain ⟨label, internal, haux⟩ := h.getElem?_aux hi
  obtain ⟨hslacks, hgap⟩ := h.ownValues_of_feasible hx hgives hi hnd haux
  refine holdsInclusive_of_slacks (fun q hq => ?_) hgap
  obtain ⟨k, hk, rfl⟩ := List.mem_map.mp (hslacks ▸ hq : q ∈ ownValues unknowns aux i _ x)
  apply hx.nonneg
  rw [h.length_columns]
  exact Nat.add_lt_add_left (blockStart_add_lt haux (List.mem_range.mp hk)) _

/-- A point that has the values of an assignment first has them in the variable columns. -/
theorem LaidOut.gives_append (z : Assignment) (tail : List Rat) :
    e.Gives (fun j => (unknowns.map z ++ tail).getD j 0) z := by
  intro j c hj hvar
  have hlt := (h.isVariable_iff hj).mp hvar
  obtain ⟨c', hj', hname, -⟩ := h.getElem?_columns_unknown hlt
  dsimp only
  rw [Option.some.inj (hj.symm.trans hj'), hname, List.getD_append _ _ _ _ (by simpa using hlt),
    List.getD_eq_getElem _ _ (by simpa using hlt), List.getElem_map]

theorem LaidOut.gives_entries (z : Assignment) :
    e.Gives (fun j => (entries unknowns rows z).getD j 0) z :=
  h.gives_append z _

end Points

/-! ## The equations of some rows -/

section Rows

/-- A feasible point of the equations of some rows satisfies each of them over the variables. -/
theorem holdsInclusive_of_feasible (he : ofRows objective rows condition split internalFrom = .ok e)
    (hx : e.Feasible x) (hgives : e.Gives x z) (hrow : row ∈ rows) (hnd : row.names.Nodup) :
    row.HoldsInclusive z :=
  (row.holdsInclusive_normalized z).mp ((laidOut_of_ofRows he).1.holdsInclusive_of_feasible hx hgives
    (List.mem_map_of_mem hrow) (Row.nodup_names_normalized hnd))

/-- The feasible points of the equations of some rows, over the variables: the assignments that satisfy the rows,
strict comparators read as inclusive, and are not negative on the variable columns. -/
theorem feasible_iff (he : ofRows objective rows condition split internalFrom = .ok e)
    (hnd : ∀ row ∈ rows, row.names.Nodup) (z : Assignment) :
    (∃ x, e.Feasible x ∧ e.Gives x z) ↔
      (∀ name ∈ unknownsOf objective rows, 0 ≤ z name) ∧ ∀ row ∈ rows, row.HoldsInclusive z := by
  have h := (laidOut_of_ofRows he).1
  constructor
  · rintro ⟨x, hx, hgives⟩
    refine ⟨?_, fun row hrow => holdsInclusive_of_feasible he hx hgives hrow (hnd row hrow)⟩
    intro name hname
    obtain ⟨c, hc, rfl, hvar⟩ := h.exists_variable hname
    obtain ⟨j, hj⟩ := List.mem_iff_getElem?.mp hc
    rw [← hgives j c hj hvar]
    exact hx.nonneg j (List.getElem?_eq_some_iff.mp hj).1
  · rintro ⟨hnn, hrows⟩
    refine ⟨_, h.feasible_entries ?_ ?_ hnn, h.gives_entries z⟩
    · exact List.forall_mem_map.mpr fun row hrow => Row.nodup_names_normalized (hnd row hrow)
    · exact List.forall_mem_map.mpr fun row hrow => (row.holdsInclusive_normalized z).mpr (hrows row hrow)

/-- The right sides are not negative and the basic columns form an identity. -/
structure Based (e : Equations) : Prop where
  width : ∀ line ∈ e.rows, line.length = e.columns.length + 1
  rhs_nonneg : ∀ line ∈ e.rows, 0 ≤ line.getD e.columns.length 0
  length_basis : e.basis.length = e.rows.length
  identity : ∀ (i b : Nat), e.basis[i]? = some b → b < e.columns.length ∧
    ∀ (k : Nat) (line : List Rat), e.rows[k]? = some line → line.getD b 0 = if k = i then 1 else 0

theorem based_of_ofRows (he : ofRows objective rows condition split internalFrom = .ok e) : e.Based := by
  have h := (laidOut_of_ofRows he).1
  refine ⟨fun line => h.length_row, ?_, h.length_basis.trans h.length_rows.symm, ?_⟩
  · intro line hline
    obtain ⟨i, hi⟩ := List.mem_iff_getElem?.mp hline
    exact h.rhs_of_row hi
  · intro i b hb
    have hlt : i < (rows.map Row.normalized).length := h.length_basis ▸ (List.getElem?_eq_some_iff.mp hb).1
    obtain ⟨b', c, hb', hc, -, -, -, hone⟩ := h.basic_spec hlt
    obtain rfl := Option.some.inj (hb.symm.trans hb')
    exact ⟨(List.getElem?_eq_some_iff.mp hc).1, hone⟩

end Rows

end ExactLP.Equations
