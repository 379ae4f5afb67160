import ExactLP.Simplex.State
import ExactLP.Proofs.Grid.Residual

/-!
# Proofs.Simplex.Canonical — canonical tableaus and their points

A state is `Canonical` for `m` constraint rows and `n` columns when its right sides are not negative and
each basic column is a unit vector over the constraint rows; a row without a basic column is zero.  It is
`Priced` when the objective row is zero at the basic columns.

* `basicPoint`: the basic solution; `moved j t`: the solution after raising column `j` from it to `t`.
* `solves_basicPoint`, `solves_moved`: both satisfy the constraint rows.
* `weight_basicPoint`, `weight_moved`, `weight_of_solves`: what the objective row says of them and of any
  other solution.
-/

open Finset

namespace ExactLP.Simplex.State

variable {s : State} {m n i j k b : Nat} {x : ColumnPoint} {w : Nat → Rat}

/-! ## Definitions -/

section Defs

/-- Column `j` is basic in the constraint row `i`. -/
def BasicIn (s : State) (i j : Nat) : Prop :=
  1 ≤ i ∧ s.basis[i]? = some (some (j : Int))

/-- A column that may enter the basis: neither eliminated nor a pseudo column. -/
def Usable (s : State) (j : Nat) : Prop :=
  ∃ c, s.columns[j]? = some c ∧ c.eliminated = false ∧ c.role.isPseudo = false

/-- What holds of the constraint rows between pivots. -/
structure Canonical (s : State) (m n : Nat) : Prop where
  shaped : s.tableau.Shaped (m + 1) (n + 1)
  columns_length : s.columns.length = n
  basis_length : s.basis.length = m + 1
  basis_zero : s.basis[0]? = some none
  rhs_nonneg : ∀ i, 1 ≤ i → i ≤ m → 0 ≤ s.tableau.entry i n
  slot : ∀ i, 1 ≤ i → i ≤ m → s.basis[i]? = some none ∨ ∃ j, s.BasicIn i j
  empty : ∀ i, 1 ≤ i → s.basis[i]? = some none → ∀ l, s.tableau.entry i l = 0
  usable : ∀ i j, s.BasicIn i j → s.Usable j
  unit : ∀ i j, s.BasicIn i j → s.tableau.entry i j = 1
  zero_elsewhere : ∀ i j, s.BasicIn i j → ∀ k, 1 ≤ k → k ≤ m → k ≠ i → s.tableau.entry k j = 0

/-- The objective row is zero at the basic columns. -/
def Priced (s : State) : Prop :=
  ∀ i j, s.BasicIn i j → s.tableau.entry 0 j = 0

/-- The row in which a column is basic. -/
def rowOf? (s : State) (j : Nat) : Option Nat :=
  s.constraintRows.find? fun i => s.basis[i]? == some (some (j : Int))

/-- The basic solution: a basic column has the right side of its row and every other column is zero. -/
def basicPoint (s : State) : ColumnPoint := fun j =>
  match s.rowOf? j with
  | some i => s.tableau.lastEntry i
  | none => 0

/-- How the basic columns change when column `j` is raised by one. -/
def direction (s : State) (j : Nat) : ColumnPoint := fun k =>
  if k = j then 1
  else match s.rowOf? k with
    | some i => -s.tableau.entry i j
    | none => 0

/-- The basic solution with column `j` raised to `t`. -/
def moved (s : State) (j : Nat) (t : Rat) : ColumnPoint := fun k =>
  s.basicPoint k + t * s.direction j k

end Defs

/-! ## Basic columns -/

section Basic

/-- A row has one basic column at most. -/
theorem BasicIn.column_unique (h : s.BasicIn i j) (h' : s.BasicIn i k) : j = k := by
  have heq := h.2.symm.trans h'.2
  simpa using heq

theorem Usable.lt (h : s.Usable j) : j < s.columns.length := by
  obtain ⟨c, hc, -⟩ := h
  exact (List.getElem?_eq_some_iff.mp hc).1

variable (hc : s.Canonical m n)
include hc

theorem Canonical.mem_constraintRows : i ∈ s.constraintRows ↔ 1 ≤ i ∧ i ≤ m := by
  simp only [constraintRows, hc.shaped.rowCount_eq, List.mem_map, List.mem_range]
  constructor
  · rintro ⟨a, ha, rfl⟩
    omega
  · intro h
    exact ⟨i - 1, by omega, by omega⟩

theorem Canonical.lastEntry_eq (i : Nat) : s.tableau.lastEntry i = s.tableau.entry i n :=
  hc.shaped.lastEntry_eq (Nat.succ_pos m) i

theorem Canonical.row_le (h : s.BasicIn i j) : i ≤ m := by
  have hlt := (List.getElem?_eq_some_iff.mp h.2).1
  have hlen := hc.basis_length
  omega

theorem Canonical.usable_lt (h : s.Usable j) : j < n :=
  hc.columns_length ▸ h.lt

theorem Canonical.basic_lt (h : s.BasicIn i j) : j < n :=
  hc.usable_lt (hc.usable i j h)

/-- A column is basic in one row at most. -/
theorem Canonical.row_unique (h : s.BasicIn i j) (h' : s.BasicIn k j) : i = k := by
  by_contra hne
  have h0 := hc.zero_elsewhere k j h' i h.1 (hc.row_le h) hne
  rw [hc.unit i j h] at h0
  exact one_ne_zero h0

theorem Canonical.rowOf?_eq_some_iff : s.rowOf? j = some i ↔ s.BasicIn i j := by
  unfold rowOf?
  constructor
  · intro h
    have hmem := List.mem_of_find?_eq_some h
    have hval := List.find?_some h
    exact ⟨(hc.mem_constraintRows.mp hmem).1, by simpa using hval⟩
  · intro h
    cases hfind : s.constraintRows.find? fun i => s.basis[i]? == some (some (j : Int)) with
    | none =>
      have hno := List.find?_eq_none.mp hfind i (hc.mem_constraintRows.mpr ⟨h.1, hc.row_le h⟩)
      rw [h.2] at hno
      exact absurd (beq_self_eq_true _) hno
    | some k =>
      have hk := (hc.mem_constraintRows.mp (List.mem_of_find?_eq_some hfind)).1
      have hval := List.find?_some hfind
      rw [hc.row_unique h ⟨hk, by simpa using hval⟩]

theorem Canonical.rowOf?_eq_none_iff : s.rowOf? j = none ↔ ∀ i, ¬s.BasicIn i j := by
  constructor
  · intro h i hi
    rw [hc.rowOf?_eq_some_iff.mpr hi] at h
    exact absurd h (by simp)
  · intro h
    cases hr : s.rowOf? j with
    | none => rfl
    | some i => exact absurd (hc.rowOf?_eq_some_iff.mp hr) (h i)

end Basic

/-! ## Sums along a row -/

section Sums

variable (hc : s.Canonical m n)
include hc

/-- A constraint row sums to its basic column and what the other columns that are not basic add. -/
theorem Canonical.sum_row (hb : s.BasicIn i b) (x : ColumnPoint) :
    ∑ l ∈ range n, s.tableau.entry i l * x l =
      x b + ∑ l ∈ range n with s.rowOf? l = none, s.tableau.entry i l * x l := by
  rw [← sum_filter_add_sum_filter_not (range n) (fun l => s.rowOf? l = none), add_comm]
  congr 1
  rw [sum_eq_single_of_mem b]
  · rw [hc.unit i b hb, one_mul]
  · rw [mem_filter, mem_range, hc.rowOf?_eq_some_iff.mpr hb]
    exact ⟨hc.basic_lt hb, by simp⟩
  · intro l hl hne
    obtain ⟨k, hk⟩ := Option.ne_none_iff_exists'.mp (mem_filter.mp hl).2
    have hk' := hc.rowOf?_eq_some_iff.mp hk
    have hki : k ≠ i := by
      rintro rfl
      exact hne (hk'.column_unique hb)
    rw [hc.zero_elsewhere k l hk' i hb.1 (hc.row_le hb) (Ne.symm hki), zero_mul]

/-- A priced objective row sums to what the columns that are not basic add. -/
theorem Canonical.sum_objective (hp : s.Priced) (x : ColumnPoint) :
    ∑ l ∈ range n, s.tableau.entry 0 l * x l =
      ∑ l ∈ range n with s.rowOf? l = none, s.tableau.entry 0 l * x l := by
  rw [← sum_filter_add_sum_filter_not (range n) (fun l => s.rowOf? l = none)]
  refine add_eq_left.mpr (sum_eq_zero ?_)
  intro l hl
  obtain ⟨k, hk⟩ := Option.ne_none_iff_exists'.mp (mem_filter.mp hl).2
  rw [hp k l (hc.rowOf?_eq_some_iff.mp hk), zero_mul]

end Sums

/-! ## The basic solution -/

section BasicPoint

variable (hc : s.Canonical m n)
include hc

theorem Canonical.basicPoint_of_basicIn (h : s.BasicIn i j) : s.basicPoint j = s.tableau.entry i n := by
  rw [basicPoint, hc.rowOf?_eq_some_iff.mpr h]
  exact hc.lastEntry_eq i

omit hc in
theorem basicPoint_of_rowOf? (h : s.rowOf? j = none) : s.basicPoint j = 0 := by
  rw [basicPoint, h]

theorem Canonical.basicPoint_nonneg (j : Nat) : 0 ≤ s.basicPoint j := by
  cases h : s.rowOf? j with
  | none => rw [basicPoint_of_rowOf? h]
  | some i =>
    have hb := hc.rowOf?_eq_some_iff.mp h
    rw [hc.basicPoint_of_basicIn hb]
    exact hc.rhs_nonneg i hb.1 (hc.row_le hb)

theorem Canonical.basicPoint_of_not_usable (h : ¬s.Usable j) : s.basicPoint j = 0 :=
  basicPoint_of_rowOf? (hc.rowOf?_eq_none_iff.mpr fun i hi => h (hc.usable i j hi))

omit hc in
theorem sum_nonbasic_basicPoint (i n : Nat) :
    ∑ l ∈ range n with s.rowOf? l = none, s.tableau.entry i l * s.basicPoint l = 0 :=
  sum_eq_zero fun l hl => by rw [basicPoint_of_rowOf? (mem_filter.mp hl).2, mul_zero]

theorem Canonical.solves_basicPoint : s.tableau.Solves m n s.basicPoint := by
  intro i h1 h2
  rcases hc.slot i h1 h2 with hnone | ⟨b, hb⟩
  · have hz := hc.empty i h1 hnone
    exact Grid.residual_eq_zero (hz n) fun l _ => Or.inl (hz l)
  · rw [Grid.residual, hc.sum_row hb, sum_nonbasic_basicPoint, hc.basicPoint_of_basicIn hb]
    ring

theorem Canonical.residual_zero_basicPoint (hp : s.Priced) :
    s.tableau.residual n 0 s.basicPoint = -s.tableau.entry 0 n := by
  rw [Grid.residual, hc.sum_objective hp, sum_nonbasic_basicPoint, zero_sub]

end BasicPoint

/-! ## Raising one column -/

section Moved

variable (hc : s.Canonical m n) (hj : s.rowOf? j = none) (hjn : j < n)
include hc hj hjn

omit hc in
theorem sum_nonbasic_direction (i : Nat) :
    ∑ l ∈ range n with s.rowOf? l = none, s.tableau.entry i l * s.direction j l =
      s.tableau.entry i j := by
  rw [sum_eq_single_of_mem j (mem_filter.mpr ⟨mem_range.mpr hjn, hj⟩)]
  · simp [direction]
  · intro l hl hne
    simp [direction, hne, (mem_filter.mp hl).2]

omit hjn in
theorem Canonical.direction_of_basicIn (hb : s.BasicIn i b) :
    s.direction j b = -s.tableau.entry i j := by
  have hr := hc.rowOf?_eq_some_iff.mpr hb
  have hne : b ≠ j := by
    rintro rfl
    rw [hr] at hj
    exact absurd hj (by simp)
  simp [direction, hne, hr]

/-- Constraint rows do not see a movement along the direction of a column. -/
theorem Canonical.sum_direction (h1 : 1 ≤ i) (h2 : i ≤ m) :
    ∑ l ∈ range n, s.tableau.entry i l * s.direction j l = 0 := by
  rcases hc.slot i h1 h2 with hnone | ⟨b, hb⟩
  · exact sum_eq_zero fun l _ => by rw [hc.empty i h1 hnone l, zero_mul]
  · rw [hc.sum_row hb, sum_nonbasic_direction hj hjn, hc.direction_of_basicIn hj hb, neg_add_cancel]

omit hc hj hjn in
theorem residual_moved (g : Grid) (i n j : Nat) (t : Rat) :
    g.residual n i (s.moved j t) = g.residual n i s.basicPoint +
      t * ∑ l ∈ range n, g.entry i l * s.direction j l := by
  simp only [Grid.residual, moved, mul_sum, mul_add, sum_add_distrib]
  have hswap : ∑ l ∈ range n, g.entry i l * (t * s.direction j l) =
      ∑ l ∈ range n, t * (g.entry i l * s.direction j l) :=
    sum_congr rfl fun l _ => by ring
  rw [hswap]
  ring

theorem Canonical.solves_moved (t : Rat) : s.tableau.Solves m n (s.moved j t) := by
  intro i h1 h2
  rw [residual_moved, hc.solves_basicPoint i h1 h2, hc.sum_direction hj hjn h1 h2, mul_zero, add_zero]

theorem Canonical.residual_zero_moved (hp : s.Priced) (t : Rat) :
    s.tableau.residual n 0 (s.moved j t) = t * s.tableau.entry 0 j - s.tableau.entry 0 n := by
  rw [residual_moved, hc.residual_zero_basicPoint hp, hc.sum_objective hp,
    sum_nonbasic_direction hj hjn]
  ring

omit hc hjn in
theorem moved_self (t : Rat) : s.moved j t j = t := by
  simp [moved, direction, basicPoint_of_rowOf? hj]

omit hjn in
theorem Canonical.moved_of_basicIn (hb : s.BasicIn i b) (t : Rat) :
    s.moved j t b = s.tableau.entry i n - s.tableau.entry i j * t := by
  rw [moved, hc.basicPoint_of_basicIn hb, hc.direction_of_basicIn hj hb]
  ring

omit hc hj hjn in
theorem moved_of_ne (hk : s.rowOf? k = none) (hne : k ≠ j) (t : Rat) : s.moved j t k = 0 := by
  simp [moved, direction, hne, hk, basicPoint_of_rowOf? hk]

omit hjn in
/-- A column without positive entries can be raised without end. -/
theorem Canonical.moved_nonneg (hcol : ∀ i, 1 ≤ i → i ≤ m → s.tableau.entry i j ≤ 0) {t : Rat}
    (ht : 0 ≤ t) (k : Nat) : 0 ≤ s.moved j t k := by
  cases hk : s.rowOf? k with
  | none =>
    by_cases hkj : k = j
    · rw [hkj, moved_self hj]
      exact ht
    · rw [moved_of_ne hk hkj]
  | some i =>
    have hb := hc.rowOf?_eq_some_iff.mp hk
    have him := hc.row_le hb
    have hprod := mul_nonneg (neg_nonneg.mpr (hcol i hb.1 him)) ht
    have hrhs := hc.rhs_nonneg i hb.1 him
    rw [hc.moved_of_basicIn hj hb]
    linarith

omit hj hjn in
theorem Canonical.moved_of_not_usable (hu : s.Usable j) (hk : ¬s.Usable k) (t : Rat) :
    s.moved j t k = 0 := by
  have hkr := hc.rowOf?_eq_none_iff.mpr fun i hi => hk (hc.usable i k hi)
  exact moved_of_ne hkr (by rintro rfl; exact hk hu) t

end Moved

/-! ## What the objective row says -/

section Weight

variable (hw : s.tableau.Prices m n w)
include hw

omit hw in
private theorem weight_eq {r : Rat} (hr : s.tableau.residual n 0 x = -r) :
    r = s.tableau.entry 0 n - ∑ l ∈ range n, s.tableau.entry 0 l * x l := by
  rw [Grid.residual] at hr
  linarith

theorem weight_of_solves (hx : s.tableau.Solves m n x) :
    ∑ l ∈ range n, w l * x l =
      s.tableau.entry 0 n - ∑ l ∈ range n, s.tableau.entry 0 l * x l :=
  weight_eq (hw x hx)

theorem Canonical.weight_basicPoint (hc : s.Canonical m n) (hp : s.Priced) :
    ∑ l ∈ range n, w l * s.basicPoint l = s.tableau.entry 0 n := by
  have h := hw _ hc.solves_basicPoint
  rw [hc.residual_zero_basicPoint hp] at h
  exact (neg_injective h).symm

theorem Canonical.weight_moved (hc : s.Canonical m n) (hp : s.Priced) (hj : s.rowOf? j = none)
    (hjn : j < n) (t : Rat) :
    ∑ l ∈ range n, w l * s.moved j t l = s.tableau.entry 0 n - t * s.tableau.entry 0 j := by
  have h := hw _ (hc.solves_moved hj hjn t)
  rw [hc.residual_zero_moved hj hjn hp] at h
  linarith

end Weight

end ExactLP.Simplex.State
