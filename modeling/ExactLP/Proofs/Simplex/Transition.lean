import ExactLP.Proofs.Simplex.PhaseOne

/-!
# Proofs.Simplex.Transition — from phase one to phase two

The transition drops columns and rows that no admitted point needs.  `Reduced` says what it keeps: the
invariant, the columns up to their marks, the points that the state admits, the right sides, and the solutions
that are zero on what is eliminated.

* `Reduced.eliminate`: dropping a column that is zero at every admitted point.
* `freeRow_run`: a row at level zero loses its artificial column to a pivot, or is redundant and dropped.
* `transition_run`: the whole transition; afterwards every artificial column is eliminated.
-/

namespace ExactLP

/-- A column without the mark of elimination. -/
def Column.bare (c : Column) : Column := { c with eliminated := false }

namespace Simplex.State

open Grid (SameSystem)

variable {s t u v : State} {m n a i j k b : Nat} {x : ColumnPoint}

/-! ## Definitions -/

section Defs

/-- Column `j` is artificial. -/
def Artificial (s : State) (j : Nat) : Prop :=
  ∃ c, s.columns[j]? = some c ∧ c.role.isArtificial = true

/-- Column `j` is eliminated. -/
def Eliminated (s : State) (j : Nat) : Prop :=
  ∃ c, s.columns[j]? = some c ∧ c.eliminated = true

/-- Eliminated columns are zero in every constraint row. -/
def Blank (s : State) (m : Nat) : Prop :=
  ∀ j, s.Eliminated j → ∀ i, 1 ≤ i → i ≤ m → s.tableau.entry i j = 0

/-- The columns with one more marked as eliminated. -/
def marked (columns : List Column) (j : Nat) : List Column :=
  columns.modify j fun c => { c with eliminated := true }

/-- `t` comes from `s` without columns and rows that no admitted point needs. -/
structure Reduced (s t : State) (m n : Nat) : Prop where
  canonical : t.Canonical m n
  bare_eq : t.columns.map Column.bare = s.columns.map Column.bare
  admits_iff : ∀ x, t.Admits x ↔ s.Admits x
  rhs_eq : ∀ i, 1 ≤ i → i ≤ m → t.tableau.entry i n = s.tableau.entry i n
  priced : s.Priced → t.Priced
  blank : s.Blank m → t.Blank m
  eliminated_to : ∀ j, s.Eliminated j → t.Eliminated j
  /-- A point that may use pseudo columns is kept as a solution, not as one that is admitted. -/
  solves_of : ∀ x : ColumnPoint, (∀ j, t.Eliminated j → x j = 0) → s.tableau.Solves m n x →
    t.tableau.Solves m n x

/-- `t` comes from `s` by taking the artificial basic column out of row `a`. -/
structure Freed (s t : State) (m n a : Nat) : Prop where
  reduced : s.Reduced t m n
  columns_eq : t.columns = s.columns
  basicIn_of : ∀ i j, t.BasicIn i j → (i ≠ a ∧ s.BasicIn i j) ∨ (i = a ∧ ¬s.Artificial j)
  basicIn_to : ∀ i j, i ≠ a → s.BasicIn i j → t.BasicIn i j

/-- `t` comes from `s` by a turn at row `a`: an artificial column that was basic there is eliminated. -/
structure Cleared (s t : State) (m n a : Nat) : Prop where
  reduced : s.Reduced t m n
  basicIn_of : ∀ i j, s.Artificial j → t.BasicIn i j → i ≠ a ∧ s.BasicIn i j
  basicIn_to : ∀ i j, s.Artificial j → s.BasicIn i j → t.Eliminated j ∨ (i ≠ a ∧ t.BasicIn i j)

theorem Artificial.isArtificial (h : s.Artificial j) {c : Column} (hcol : s.columns[j]? = some c) :
    c.role.isArtificial = true := by
  obtain ⟨c', hcol', hart⟩ := h
  rwa [Option.some.inj (hcol.symm.trans hcol')]

/-- States with the same columns and solutions have the same blank columns. -/
theorem Blank.of_solves (h : s.Blank m) (hc : t.Canonical m n) (hcol : t.columns = s.columns)
    (hsol : ∀ x, t.tableau.Solves m n x ↔ s.tableau.Solves m n x) : t.Blank m := by
  intro j helim i h1 h2
  obtain ⟨c, hj, he⟩ := helim
  have hjn : j < n := hc.columns_length ▸ (List.getElem?_eq_some_iff.mp hj).1
  -- Raising the column by one keeps a solution of `s`, so it keeps the basic solution of `t`.
  set x : ColumnPoint := fun k => t.basicPoint k + if k = j then 1 else 0 with hx
  have hraise : ∀ g : Grid, ∀ i, g.residual n i x = g.residual n i t.basicPoint + g.entry i j := by
    intro g i
    simp only [Grid.residual, hx, mul_add, Finset.sum_add_distrib, mul_ite, mul_one, mul_zero]
    rw [Finset.sum_ite_eq' (Finset.range n) j, if_pos (Finset.mem_range.mpr hjn)]
    ring
  have hbasic := hc.solves_basicPoint
  have hsx : s.tableau.Solves m n x := by
    intro k hk1 hk2
    rw [hraise, (hsol _).mp hbasic k hk1 hk2, h j ⟨c, hcol ▸ hj, he⟩ k hk1 hk2, add_zero]
  have hres := (hsol x).mpr hsx i h1 h2
  rwa [hraise, hbasic i h1 h2, zero_add] at hres

theorem Artificial.lt (h : s.Artificial j) : j < s.columns.length := by
  obtain ⟨c, hcol, -⟩ := h
  exact (List.getElem?_eq_some_iff.mp hcol).1

theorem Reduced.refl (hc : s.Canonical m n) : s.Reduced s m n :=
  ⟨hc, rfl, fun _ => Iff.rfl, fun _ _ _ => rfl, id, id, fun _ => id, fun _ _ => id⟩

theorem Reduced.trans (h : s.Reduced t m n) (h' : t.Reduced u m n) : s.Reduced u m n where
  canonical := h'.canonical
  bare_eq := h'.bare_eq.trans h.bare_eq
  admits_iff x := (h'.admits_iff x).trans (h.admits_iff x)
  rhs_eq i h1 h2 := (h'.rhs_eq i h1 h2).trans (h.rhs_eq i h1 h2)
  priced := h'.priced ∘ h.priced
  blank := h'.blank ∘ h.blank
  eliminated_to j helim := h'.eliminated_to j (h.eliminated_to j helim)
  solves_of x hx hsol := h'.solves_of x hx (h.solves_of x (fun j helim => hx j (h'.eliminated_to j helim)) hsol)

end Defs

/-! ## Columns up to their marks -/

section Bare

theorem getElem?_marked (columns : List Column) (j k : Nat) :
    (marked columns j)[k]? =
      columns[k]?.map fun c => if k = j then { c with eliminated := true } else c := by
  rw [marked, List.getElem?_modify]
  cases columns[k]? with
  | none => rfl
  | some c =>
    by_cases h : k = j
    · simp [h]
    · simp [h, Ne.symm h]

theorem getElem?_marked_of_ne {columns : List Column} (h : k ≠ j) :
    (marked columns j)[k]? = columns[k]? := by
  rw [getElem?_marked]
  simp [h]

theorem map_bare_marked (columns : List Column) (j : Nat) :
    (marked columns j).map Column.bare = columns.map Column.bare := by
  refine List.ext_getElem? ?_
  intro k
  rw [List.getElem?_map, List.getElem?_map, getElem?_marked, Option.map_map]
  congr 1
  funext c
  by_cases h : k = j <;> simp [h, Column.bare]

/-- Columns that are the same up to their marks, one by one. -/
theorem exists_of_map_bare_eq {columns columns' : List Column}
    (h : columns.map Column.bare = columns'.map Column.bare) {c : Column} (hj : columns[j]? = some c) :
    ∃ c', columns'[j]? = some c' ∧ c'.bare = c.bare := by
  have hget := congrArg (·[j]?) h
  simp only [List.getElem?_map, hj, Option.map_some] at hget
  exact Option.map_eq_some_iff.mp hget.symm

theorem Reduced.artificial_iff (h : s.Reduced t m n) : t.Artificial j ↔ s.Artificial j := by
  have hrole : ∀ {p q : List Column}, p.map Column.bare = q.map Column.bare →
      (∃ c, p[j]? = some c ∧ c.role.isArtificial = true) →
      ∃ c, q[j]? = some c ∧ c.role.isArtificial = true := by
    rintro p q heq ⟨c, hc, ha⟩
    obtain ⟨c', hc', hbare⟩ := exists_of_map_bare_eq heq hc
    have hr : c'.bare.role = c.bare.role := congrArg Column.role hbare
    exact ⟨c', hc', (congrArg Role.isArtificial hr).trans ha⟩
  exact ⟨hrole h.bare_eq, hrole h.bare_eq.symm⟩

theorem Eliminated.marked (h : s.Eliminated k) (hcol : t.columns = State.marked s.columns j) :
    t.Eliminated k := by
  obtain ⟨c, hc, he⟩ := h
  refine ⟨if k = j then { c with eliminated := true } else c, ?_, ?_⟩
  · rw [hcol, getElem?_marked, hc, Option.map_some]
  · split
    · rfl
    · exact he

/-- What is eliminated after one more column is marked. -/
theorem Eliminated.of_marked (h : t.Eliminated k) (hcol : t.columns = State.marked s.columns j) :
    k = j ∨ s.Eliminated k := by
  obtain ⟨c, hc, he⟩ := h
  by_cases hk : k = j
  · exact Or.inl hk
  · rw [hcol, getElem?_marked_of_ne hk] at hc
    exact Or.inr ⟨c, hc, he⟩

theorem eliminated_marked (hj : j < s.columns.length) (hcol : t.columns = marked s.columns j) :
    t.Eliminated j := by
  refine ⟨{ s.columns[j] with eliminated := true }, ?_, rfl⟩
  rw [hcol, getElem?_marked, List.getElem?_eq_getElem hj, Option.map_some, if_pos rfl]

end Bare

/-! ## Dropping a column -/

section Column

/-- Eliminating a column that is not basic: a point is admitted afterwards when it was before and is zero
there, and a point that is zero there stays a solution. -/
theorem Canonical.eliminate_run (hc : s.Canonical m n) (hno : ∀ i, ¬s.BasicIn i j) (hj : j < n) :
    ∃ t, (eliminate j).run s = (.ok ⟨⟩, t) ∧ t.Canonical m n ∧ t.basis = s.basis ∧
      t.columns = marked s.columns j ∧ (∀ i, t.tableau.entry i n = s.tableau.entry i n) ∧
      (s.Priced → t.Priced) ∧ (s.Blank m → t.Blank m) ∧
      (∀ x : ColumnPoint, x j = 0 → (t.tableau.Solves m n x ↔ s.tableau.Solves m n x)) ∧
      ∀ x, t.Admits x ↔ s.Admits x ∧ x j = 0 := by
  obtain ⟨g, hfill, hs, hentry⟩ := Grid.fillColumn_spec hc.shaped (Nat.succ_pos m) (show j < n + 1 by omega)
  set t : State := { s with tableau := g, columns := marked s.columns j } with ht
  have hne : ∀ {i b}, s.BasicIn i b → b ≠ j := by
    rintro i b hb rfl
    exact hno i hb
  have hct : t.Canonical m n := by
    constructor
    · exact hs
    · rw [ht, marked, List.length_modify]
      exact hc.columns_length
    · exact hc.basis_length
    · exact hc.basis_zero
    · intro i h1 h2
      rw [hentry, if_neg (by omega)]
      exact hc.rhs_nonneg i h1 h2
    · exact hc.slot
    · intro i h1 h2 l
      rw [hentry]
      split
      · rfl
      · exact hc.empty i h1 h2 l
    · intro i b hb
      obtain ⟨c, hcol, h⟩ := hc.usable i b hb
      exact ⟨c, (getElem?_marked_of_ne (hne hb)).trans hcol, h⟩
    · intro i b hb
      rw [hentry, if_neg (hne hb)]
      exact hc.unit i b hb
    · intro i b hb k h1 h2 hk
      rw [hentry, if_neg (hne hb)]
      exact hc.zero_elsewhere i b hb k h1 h2 hk
  have hjs : j < s.columns.length := by rw [hc.columns_length]; exact hj
  have hsolves : ∀ x : ColumnPoint, x j = 0 →
      (t.tableau.Solves m n x ↔ s.tableau.Solves m n x) := by
    intro x hx
    refine forall_congr' fun i => forall_congr' fun _ => forall_congr' fun _ => ?_
    rw [Grid.residual_congr_of_zero (g := s.tableau) (by rw [hentry, if_neg (by omega)]) fun l _ => ?_]
    by_cases hl : l = j
    · exact Or.inr (hl ▸ hx)
    · exact Or.inl (by rw [hentry, if_neg hl])
  refine ⟨t, ?_, hct, rfl, rfl, ?_, ?_, ?_, hsolves, ?_⟩
  · unfold eliminate
    refine (run_bind_of_ok (onTableau_run hfill)).trans ?_
    rw [run_modify]
    simp only [resolveIndex_natCast hjs]
    rfl
  · intro i
    show g.entry i n = _
    rw [hentry, if_neg (by omega)]
  · intro hp i b hb
    show g.entry 0 b = 0
    rw [hentry, if_neg (hne hb)]
    exact hp i b hb
  · intro hblank k hk i h1 h2
    show g.entry i k = 0
    rw [hentry]
    split
    · rfl
    · rename_i hkj
      exact hblank k ((hk.of_marked (j := j) rfl).resolve_left hkj) i h1 h2
  · intro x
    rw [hc.admits_iff, hct.admits_iff]
    constructor
    · rintro ⟨hnn, hz, hsol⟩
      have hx : x j = 0 := by
        refine hz j { s.columns[j] with eliminated := true } ?_ (Or.inr rfl)
        rw [ht, getElem?_marked, List.getElem?_eq_getElem hjs, Option.map_some, if_pos rfl]
      refine ⟨⟨hnn, ?_, (hsolves x hx).mp hsol⟩, hx⟩
      intro k c hcol hbad
      by_cases hk : k = j
      · rw [hk, hx]
      · exact hz k c ((getElem?_marked_of_ne hk).trans hcol) hbad
    · rintro ⟨⟨hnn, hz, hsol⟩, hx⟩
      refine ⟨hnn, ?_, (hsolves x hx).mpr hsol⟩
      intro k c hcol hbad
      by_cases hk : k = j
      · rw [hk, hx]
      · exact hz k c ((getElem?_marked_of_ne hk).symm.trans hcol) hbad

/-- Eliminating a column that is not basic and is zero at every admitted point. -/
theorem Reduced.eliminate (h : s.Reduced t m n) (hno : ∀ i, ¬t.BasicIn i j) (hj : j < n)
    (hzero : ∀ x, s.Admits x → x j = 0) :
    ∃ u, (eliminate j).run t = (.ok ⟨⟩, u) ∧ s.Reduced u m n ∧ u.basis = t.basis ∧
      u.columns = marked t.columns j := by
  obtain ⟨u, hrun, hcu, hbasis, hcol, hrhs, hpriced, hblank, hsol, hadm⟩ := h.canonical.eliminate_run hno hj
  have helim : u.Eliminated j := eliminated_marked (by rw [h.canonical.columns_length]; exact hj) hcol
  have hkept : ∀ k, t.Eliminated k → u.Eliminated k := fun k hk => hk.marked hcol
  refine ⟨u, hrun, ⟨hcu, ?_, ?_, fun i h1 h2 => (hrhs i).trans (h.rhs_eq i h1 h2), hpriced ∘ h.priced,
    hblank ∘ h.blank, fun k hk => hkept k (h.eliminated_to k hk), ?_⟩, hbasis, hcol⟩
  · rw [hcol, map_bare_marked, h.bare_eq]
  · intro x
    rw [hadm, h.admits_iff]
    exact ⟨And.left, fun hx => ⟨hx, hzero x hx⟩⟩
  · intro x hx hsolves
    exact (hsol x (hx j helim)).mpr (h.solves_of x (fun k hk => hx k (hkept k hk)) hsolves)

theorem Admits.eq_zero_of_artificial (hx : s.Admits x) (ha : s.Artificial j) : x j = 0 := by
  obtain ⟨c, hcol, hart⟩ := ha
  exact hx.zero j c hcol (Or.inl (by rw [Role.isForbidden, hart, Bool.true_or]))

end Column

/-! ## Useless columns -/

section Useless

theorem Canonical.contains_iff (hc : s.Canonical m n) :
    s.basis.contains (some (j : Int)) = true ↔ ∃ i, s.BasicIn i j := by
  rw [List.contains_iff_mem, List.mem_iff_getElem?]
  constructor
  · rintro ⟨i, hi⟩
    refine ⟨i, Nat.one_le_iff_ne_zero.mpr ?_, hi⟩
    rintro rfl
    rw [hc.basis_zero] at hi
    exact absurd hi (by simp)
  · rintro ⟨i, hi⟩
    exact ⟨i, hi.2⟩

/-- Eliminating the useless columns leaves the artificial columns that are basic. -/
theorem PhaseOneDone.eliminateUseless_run (h : s.PhaseOneDone t m n) :
    ∃ u, eliminateUseless.run t = (.ok ⟨⟩, u) ∧ t.Reduced u m n ∧ u.basis = t.basis ∧
      ∀ j, u.Artificial j → u.Eliminated j ∨ ∃ i, u.BasicIn i j := by
  have hc := h.canonical
  let P : List (Column × Nat) → State → Prop := fun done u => t.Reduced u m n ∧ u.basis = t.basis ∧
    ∀ p ∈ done, t.Artificial p.2 → (∀ i, ¬t.BasicIn i p.2) → u.Eliminated p.2
  have hloop := run_forM (l := t.columns.zipIdx) (P := P) (s := t) (f := fun p =>
      if t.basis.contains (some (p.2 : Int)) then pure ()
      else if p.1.role.isArtificial || t.tableau.entry 0 p.2 < 0 then eliminate p.2
      else pure ()) ?_ ⟨Reduced.refl hc, rfl, fun p hp => absurd hp (by simp)⟩
  · obtain ⟨u, hrun, hred, hbasis, hdone⟩ := hloop
    refine ⟨u, ?_, hred, hbasis, ?_⟩
    · unfold eliminateUseless
      exact (run_bind_of_ok (run_get t)).trans hrun
    · intro j hart
      have hart' := hred.artificial_iff.mp hart
      by_cases hb : ∃ i, t.BasicIn i j
      · obtain ⟨i, hi⟩ := hb
        exact Or.inr ⟨i, hi.1, hbasis ▸ hi.2⟩
      · obtain ⟨c, hcol, -⟩ := hart'
        have hmem : (c, j) ∈ t.columns.zipIdx := List.mem_zipIdx_iff_getElem?.mpr hcol
        exact Or.inl (hdone (c, j) hmem (hred.artificial_iff.mp hart) fun i hi => hb ⟨i, hi⟩)
  · rintro before ⟨c, j⟩ after hl u ⟨hred, hbasis, hdone⟩
    have hcol : t.columns[j]? = some c :=
      List.mem_zipIdx_iff_getElem?.mp (hl ▸ by simp : (c, j) ∈ t.columns.zipIdx)
    have hjn : j < n := hc.columns_length ▸ (List.getElem?_eq_some_iff.mp hcol).1
    by_cases hbasic : t.basis.contains (some (j : Int)) = true
    · refine ⟨u, by simp only [hbasic, if_true]; rfl, hred, hbasis, ?_⟩
      intro p hp hart hno
      rcases List.mem_append.mp hp with hp | hp
      · exact hdone p hp hart hno
      · obtain ⟨i, hi⟩ := hc.contains_iff.mp hbasic
        rw [List.mem_singleton.mp hp] at hno
        exact absurd hi (hno i)
    · have hno : ∀ i, ¬t.BasicIn i j := fun i hi => hbasic (hc.contains_iff.mpr ⟨i, hi⟩)
      by_cases hbad : (c.role.isArtificial || decide (t.tableau.entry 0 j < 0)) = true
      · have hzero : ∀ x, t.Admits x → x j = 0 := by
          intro x hx
          rcases Bool.or_eq_true_iff.mp hbad with hart | hneg
          · exact hx.eq_zero_of_artificial ⟨c, hcol, hart⟩
          · exact h.eq_zero_of_cost_neg hx hjn (by simpa using hneg)
        obtain ⟨u', hrun, hred', hbasis', hcol'⟩ :=
          hred.eliminate (j := j) (fun i hi => hno i ⟨hi.1, hbasis ▸ hi.2⟩) hjn hzero
        refine ⟨u', by simp only [hbasic, hbad, if_true]; exact hrun, hred',
          hbasis'.trans hbasis, ?_⟩
        intro p hp hart hno'
        rcases List.mem_append.mp hp with hp | hp
        · exact (hdone p hp hart hno').marked hcol'
        · rw [List.mem_singleton.mp hp] at hart ⊢
          exact eliminated_marked (hred.artificial_iff.mpr hart).lt hcol'
      · refine ⟨u, by simp only [hbasic, hbad]; rfl, hred, hbasis, ?_⟩
        intro p hp hart hno'
        rcases List.mem_append.mp hp with hp | hp
        · exact hdone p hp hart hno'
        · rw [List.mem_singleton.mp hp] at hart
          exact absurd (by rw [hart.isArtificial hcol, Bool.true_or]) hbad

end Useless

/-! ## Rows of artificial columns -/

section Rows

theorem replacement?_eq_some (h : s.replacement? a = some k) :
    (∃ c, s.columns[k]? = some c ∧ c.eliminated = false ∧ c.role.isForbidden = false) ∧
      s.tableau.entry a k ≠ 0 := by
  obtain ⟨⟨c, l⟩, hmem, hval⟩ := List.exists_of_findSome?_eq_some h
  have hcol := List.mem_zipIdx_iff_getElem?.mp hmem
  simp only [Option.ite_none_right_eq_some, Option.some.injEq, Bool.and_eq_true, Bool.not_eq_true',
    bne_iff_ne] at hval
  obtain ⟨⟨⟨he, hf⟩, hne⟩, rfl⟩ := hval
  exact ⟨⟨c, hcol, he, hf⟩, hne⟩

theorem entry_eq_zero_of_replacement? (h : s.replacement? a = none) {c : Column}
    (hcol : s.columns[k]? = some c) (he : c.eliminated = false) (hf : c.role.isForbidden = false) :
    s.tableau.entry a k = 0 := by
  have hno := List.findSome?_eq_none_iff.mp h (c, k) (List.mem_zipIdx_iff_getElem?.mpr hcol)
  simpa [he, hf] using hno

/-- A pivot in a row at level zero brings in a column that is not artificial. -/
theorem Canonical.replace_run (hc : s.Canonical m n) (ha : 1 ≤ a ∧ a ≤ m) (hz : s.tableau.entry a n = 0)
    (hk : s.replacement? a = some k) :
    ∃ t, (pivot a k).run s = (.ok ⟨⟩, t) ∧ s.Freed t m n a := by
  obtain ⟨⟨c, hcol, he, hf⟩, hne⟩ := replacement?_eq_some hk
  obtain ⟨hart, hpseudo⟩ := Bool.or_eq_false_iff.mp hf
  have hu : s.Usable k := ⟨c, hcol, he, hpseudo⟩
  have hrhs := keepsRhs_of_zero (c := k) hc hz
  obtain ⟨g, hp, hrun⟩ := pivot_run hc ha hu hne hrhs
  have hct := hc.pivoted hp ha hne hu hrhs
  have hsame : s.SameProblem (s.pivoted g a k) m n := ⟨rfl, rfl, rfl, hp.sameSystem ha hne⟩
  refine ⟨_, hrun, ⟨hct, rfl, fun x => hsame.admits_iff hc hct, ?_, fun hpr => hpr.pivoted hp hc ha hne,
    fun hblank b hb i h1 h2 => ?_, fun _ => id, fun x _ hsol => (hsame.system.solves_iff x).mp hsol⟩, rfl, ?_, ?_⟩
  · intro i h1 h2
    exact hp.entry_of_zero (by omega) hz
  · show g.entry i b = 0
    rw [hp.entry_of_zero (by omega) (hblank b hb a ha.1 ha.2)]
    exact hblank b hb i h1 h2
  · intro i j hb
    rcases (hc.basicIn_pivoted_iff ha).mp hb with ⟨rfl, rfl⟩ | hold
    · refine Or.inr ⟨rfl, ?_⟩
      intro hart'
      rw [hart'.isArtificial hcol] at hart
      cases hart
    · exact Or.inl hold
  · intro i j hi hb
    exact (hc.basicIn_pivoted_iff ha).mpr (Or.inr ⟨hi, hb⟩)

/-- The state without the row `a`, over a grid in which that row is zero. -/
def dropped (s : State) (g : Grid) (a : Nat) : State :=
  { s with tableau := g, basis := s.basis.set a none }

section Dropped

variable {g : Grid} (hc : s.Canonical m n) (ha : 1 ≤ a ∧ a ≤ m) (hrow : ∀ l, g.entry a l = 0)
  (hother : ∀ k ≠ a, ∀ l, g.entry k l = s.tableau.entry k l)
include hc ha

theorem Canonical.basicIn_dropped_iff : (s.dropped g a).BasicIn i j ↔ i ≠ a ∧ s.BasicIn i j := by
  have hlen : a < s.basis.length := by
    rw [hc.basis_length]
    omega
  by_cases hi : i = a
  · subst hi
    simp [dropped, BasicIn, List.getElem?_set_self hlen]
  · simp [dropped, BasicIn, List.getElem?_set_ne (Ne.symm hi), hi]

include hrow hother

theorem Canonical.dropped (hs : g.Shaped (m + 1) (n + 1)) : (s.dropped g a).Canonical m n := by
  have hlen : a < s.basis.length := by
    rw [hc.basis_length]
    omega
  constructor
  · exact hs
  · exact hc.columns_length
  · simpa [State.dropped] using hc.basis_length
  · have ha0 : a ≠ 0 := by omega
    simpa [State.dropped, List.getElem?_set_ne ha0] using hc.basis_zero
  · intro i h1 h2
    show 0 ≤ g.entry i n
    by_cases hi : i = a
    · rw [hi, hrow]
    · rw [hother i hi]
      exact hc.rhs_nonneg i h1 h2
  · intro i h1 h2
    by_cases hi : i = a
    · exact Or.inl (by rw [hi, State.dropped, List.getElem?_set_self hlen])
    · rcases hc.slot i h1 h2 with hnone | ⟨j, hj⟩
      · exact Or.inl (by rw [State.dropped, List.getElem?_set_ne (Ne.symm hi), hnone])
      · exact Or.inr ⟨j, (hc.basicIn_dropped_iff ha).mpr ⟨hi, hj⟩⟩
  · intro i h1 hnone l
    show g.entry i l = 0
    by_cases hi : i = a
    · rw [hi, hrow]
    · rw [hother i hi]
      rw [State.dropped, List.getElem?_set_ne (Ne.symm hi)] at hnone
      exact hc.empty i h1 hnone l
  · intro i j hb
    exact hc.usable i j ((hc.basicIn_dropped_iff ha).mp hb).2
  · intro i j hb
    obtain ⟨hi, hb⟩ := (hc.basicIn_dropped_iff ha).mp hb
    show g.entry i j = 1
    rw [hother i hi]
    exact hc.unit i j hb
  · intro i j hb k h1 h2 hki
    obtain ⟨hi, hb⟩ := (hc.basicIn_dropped_iff ha).mp hb
    show g.entry k j = 0
    by_cases hka : k = a
    · rw [hka, hrow]
    · rw [hother k hka]
      exact hc.zero_elsewhere i j hb k h1 h2 hki

/-- A row at level zero without a replacement asks nothing of an admitted point. -/
theorem Canonical.admits_dropped_iff (hs : g.Shaped (m + 1) (n + 1)) (hz : s.tableau.entry a n = 0)
    (hk : s.replacement? a = none) : (s.dropped g a).Admits x ↔ s.Admits x := by
  rw [(hc.dropped ha hrow hother hs).admits_iff, hc.admits_iff]
  refine and_congr_right fun _ => and_congr_right fun hforb => forall_congr' fun i =>
    forall_congr' fun h1 => forall_congr' fun h2 => ?_
  by_cases hi : i = a
  · have hnew : g.residual n i x = 0 :=
      Grid.residual_eq_zero (by rw [hi, hrow]) fun l _ => Or.inl (by rw [hi, hrow])
    have hold : s.tableau.residual n i x = 0 := by
      apply Grid.residual_eq_zero (by rw [hi, hz])
      intro l hl
      obtain ⟨c, hcol⟩ : ∃ c, s.columns[l]? = some c :=
        ⟨_, List.getElem?_eq_getElem (by rw [hc.columns_length]; exact hl)⟩
      by_cases hbad : c.role.isForbidden = true ∨ c.eliminated = true
      · exact Or.inr (hforb l c hcol hbad)
      · simp only [not_or, Bool.not_eq_true] at hbad
        exact Or.inl (hi ▸ entry_eq_zero_of_replacement? hk hcol hbad.2 hbad.1)
    show g.residual n i x = 0 ↔ _
    rw [hnew, hold]
  · show g.residual n i x = 0 ↔ _
    rw [Grid.residual_congr (hother i hi)]

end Dropped

/-- A row at level zero without a replacement is dropped. -/
theorem Canonical.drop_run (hc : s.Canonical m n) (ha : 1 ≤ a ∧ a ≤ m) (hz : s.tableau.entry a n = 0)
    (hk : s.replacement? a = none) :
    ∃ t u, (onTableau fun g => g.fillRow a 0).run s = (.ok ⟨⟩, u) ∧
      (onState fun s => s.setBasis a none).run u = (.ok ⟨⟩, t) ∧ s.Freed t m n a := by
  obtain ⟨g, hfill, hs, hrow, hother⟩ := Grid.fillRow_spec hc.shaped (show a < m + 1 by omega)
  have hlen : a < s.basis.length := by
    rw [hc.basis_length]
    omega
  refine ⟨s.dropped g a, _, onTableau_run hfill,
    onState_run (setBasis_eq (s := { s with tableau := g }) hlen none),
    ⟨hc.dropped ha hrow hother hs, rfl, fun x => hc.admits_dropped_iff ha hrow hother hs hz hk,
      ?_, ?_, ?_, fun _ => id, ?_⟩, rfl, fun i j hb => Or.inl ((hc.basicIn_dropped_iff ha).mp hb),
    fun i j hi hb => (hc.basicIn_dropped_iff ha).mpr ⟨hi, hb⟩⟩
  · intro i _ _
    show g.entry i n = _
    by_cases hi : i = a
    · rw [hi, hrow, hz]
    · exact hother i hi n
  · intro hp i b hb
    show g.entry 0 b = 0
    rw [hother 0 (by omega)]
    exact hp i b ((hc.basicIn_dropped_iff ha).mp hb).2
  · intro hblank b hb i h1 h2
    show g.entry i b = 0
    by_cases hi : i = a
    · rw [hi, hrow]
    · rw [hother i hi]
      exact hblank b hb i h1 h2
  · intro x _ hsol i h1 h2
    show g.residual n i x = 0
    by_cases hi : i = a
    · exact Grid.residual_eq_zero (by rw [hi, hrow]) fun l _ => Or.inl (by rw [hi, hrow])
    · rw [Grid.residual_congr (hother i hi)]
      exact hsol i h1 h2

/-- The column that was basic in a freed row is eliminated. -/
theorem Freed.eliminate_run (h : s.Freed t m n a) (hc : s.Canonical m n) (hb : s.BasicIn a j)
    (hart : s.Artificial j) :
    ∃ u, (eliminate j).run t = (.ok ⟨⟩, u) ∧ s.Cleared u m n a := by
  have hno : ∀ i, ¬t.BasicIn i j := by
    intro i hi
    rcases h.basicIn_of i j hi with ⟨hne, hold⟩ | ⟨-, hnot⟩
    · exact hne (hc.row_unique hold hb)
    · exact hnot hart
  obtain ⟨u, hrun, hred, hbasis, hcol⟩ :=
    h.reduced.eliminate hno (hc.basic_lt hb) fun x hx => hx.eq_zero_of_artificial hart
  have hbasic : ∀ i b, u.BasicIn i b ↔ t.BasicIn i b := fun i b => by rw [BasicIn, BasicIn, hbasis]
  refine ⟨u, hrun, hred, ?_, ?_⟩
  · intro i b hb' hi
    rcases h.basicIn_of i b ((hbasic i b).mp hi) with hold | ⟨-, hnot⟩
    · exact hold
    · exact absurd hb' hnot
  · intro i b _ hi
    by_cases hia : i = a
    · have hbj : b = j := (hia ▸ hi : s.BasicIn a b).column_unique hb
      rw [hbj]
      exact Or.inl (eliminated_marked (h.reduced.artificial_iff.mpr hart).lt hcol)
    · exact Or.inr ⟨hia, (hbasic i b).mpr (h.basicIn_to i b hia hi)⟩

/-- One turn: the artificial column that is basic in the row, if there is one, is eliminated. -/
theorem Canonical.removeArtificial_run (hc : s.Canonical m n) (ha : 1 ≤ a ∧ a ≤ m)
    (hlevel : ∀ j, s.BasicIn a j → s.Artificial j → s.tableau.entry a n = 0) :
    ∃ t, (removeArtificial a).run s = (.ok ⟨⟩, t) ∧ s.Cleared t m n a := by
  have hkeep : (∀ j, s.BasicIn a j → ¬s.Artificial j) → s.Cleared s m n a := by
    intro hno
    have hne : ∀ i j, s.Artificial j → s.BasicIn i j → i ≠ a ∧ s.BasicIn i j := by
      refine fun i j hart hb => ⟨?_, hb⟩
      rintro rfl
      exact hno j hb hart
    exact ⟨Reduced.refl hc, hne, fun i j hart hb => Or.inr (hne i j hart hb)⟩
  unfold removeArtificial
  rw [run_bind_of_ok (run_get s)]
  rcases hc.basisEntry_cases ha.1 ha.2 with ⟨he, hno⟩ | ⟨j, c, he, hb, hcol⟩
  · refine ⟨s, run_bind_of_ok (a := none) (t := s) ?_, hkeep fun j hb => absurd hb (hno j)⟩
    rw [run_lift, he]
  · have herun : (liftM (s.basisEntry a) : Step (Option Int)).run s = (.ok (some (j : Int)), s) := by
      rw [run_lift, he]
    have hcrun : (liftM (s.column j) : Step Column).run s = (.ok c, s) := by
      rw [run_lift, column_eq hcol]
    rw [run_bind_of_ok herun]
    show ∃ t, ((liftM (s.column j) : Step Column) >>= _).run s = _ ∧ _
    rw [run_bind_of_ok hcrun]
    by_cases hart : c.role.isArtificial = true
    · rw [if_pos hart]
      have hz := hlevel j hb ⟨c, hcol, hart⟩
      cases hk : s.replacement? a with
      | some k =>
        obtain ⟨t, hrun, hfree⟩ := hc.replace_run ha hz hk
        obtain ⟨u, helim, hres⟩ := hfree.eliminate_run hc hb ⟨c, hcol, hart⟩
        exact ⟨u, (run_bind_of_ok hrun).trans helim, hres⟩
      | none =>
        obtain ⟨t, v, hfill, hset, hfree⟩ := hc.drop_run ha hz hk
        obtain ⟨u, helim, hres⟩ := hfree.eliminate_run hc hb ⟨c, hcol, hart⟩
        exact ⟨u, (run_bind_of_ok hfill).trans ((run_bind_of_ok hset).trans helim), hres⟩
    · rw [if_neg hart]
      refine ⟨s, rfl, hkeep fun b hb' hart' => hart ?_⟩
      rw [hb'.column_unique hb] at hart'
      exact hart'.isArtificial hcol

/-- Turns at some rows, one after the other: the artificial columns that are left are basic in other rows, at
level zero. -/
theorem Canonical.removeSome_run (hc : s.Canonical m n) (rows : List Nat)
    (hrows : ∀ a ∈ rows, 1 ≤ a ∧ a ≤ m)
    (hall : ∀ j, s.Artificial j → s.Eliminated j ∨ ∃ i, s.BasicIn i j)
    (hlevel : ∀ i j, s.BasicIn i j → s.Artificial j → s.tableau.entry i n = 0) :
    ∃ t, (rows.forM removeArtificial).run s = (.ok ⟨⟩, t) ∧ s.Reduced t m n ∧
      (∀ i j, t.BasicIn i j → t.Artificial j → t.tableau.entry i n = 0) ∧
      ∀ j, t.Artificial j → t.Eliminated j ∨ ∃ i ∉ rows, t.BasicIn i j := by
  refine run_forM (P := fun done t => s.Reduced t m n ∧
    (∀ i j, t.BasicIn i j → t.Artificial j → t.tableau.entry i n = 0) ∧
    ∀ j, t.Artificial j → t.Eliminated j ∨ ∃ i ∉ done, t.BasicIn i j) ?_
    ⟨Reduced.refl hc, hlevel, fun j hj => (hall j hj).imp_right fun ⟨i, hi⟩ => ⟨i, by simp, hi⟩⟩
  rintro before a after hl t ⟨hred, hzero, hdone⟩
  have ha := hrows a (hl ▸ by simp)
  obtain ⟨u, hrun, hclear⟩ := hred.canonical.removeArtificial_run ha fun j hb hart => hzero a j hb hart
  have hred' := hclear.reduced
  refine ⟨u, hrun, hred.trans hred', ?_, ?_⟩
  · intro i j hb hart
    have hart' := hred'.artificial_iff.mp hart
    have hold := (hclear.basicIn_of i j hart' hb).2
    rw [hred'.rhs_eq i hold.1 (hred.canonical.row_le hold)]
    exact hzero i j hold hart'
  · intro j hart
    have hart' := hred'.artificial_iff.mp hart
    rcases hdone j hart' with helim | ⟨i, hi, hb⟩
    · exact Or.inl (hred'.eliminated_to j helim)
    · rcases hclear.basicIn_to i j hart' hb with helim | ⟨hia, hb'⟩
      · exact Or.inl helim
      · exact Or.inr ⟨i, by simp [hi, hia], hb'⟩

/-- Turns at all rows: every artificial column is eliminated in the end. -/
theorem Canonical.removeArtificials_run (hc : s.Canonical m n)
    (hall : ∀ j, s.Artificial j → s.Eliminated j ∨ ∃ i, s.BasicIn i j)
    (hlevel : ∀ i j, s.BasicIn i j → s.Artificial j → s.tableau.entry i n = 0) :
    ∃ t, (forConstraintRows removeArtificial).run s = (.ok ⟨⟩, t) ∧ s.Reduced t m n ∧ t.ArtificialFree := by
  obtain ⟨t, hrun, hred, -, hdone⟩ :=
    hc.removeSome_run s.constraintRows (fun a ha => hc.mem_constraintRows.mp ha) hall hlevel
  unfold forConstraintRows
  refine ⟨t, (run_bind_of_ok (run_get s)).trans hrun, hred, ?_⟩
  intro j c hcol hart
  rcases hdone j ⟨c, hcol, hart⟩ with ⟨c', hcol', helim⟩ | ⟨i, hi, hb⟩
  · rwa [Option.some.inj (hcol.symm.trans hcol')]
  · exact absurd (hc.mem_constraintRows.mpr ⟨hb.1, hred.canonical.row_le hb⟩) hi

end Rows

/-! ## The whole transition -/

section Whole

/-- What the second phase starts from: the problem of a state without its artificial columns, with the
objective in row 0. -/
structure PhaseTwoReady (s t : State) (m n : Nat) (setting : Setting) : Prop where
  canonical : t.Canonical m n
  priced : t.Priced
  prices : t.tableau.Prices m n (t.objectiveWeight setting.objective)
  artificialFree : t.ArtificialFree
  bare_eq : t.columns.map Column.bare = s.columns.map Column.bare
  admits_iff : ∀ x, t.Admits x ↔ s.Admits x
  blank : s.Blank m → t.Blank m
  solves_of : ∀ x : ColumnPoint, (∀ j, t.Eliminated j → x j = 0) → s.tableau.Solves m n x →
    t.tableau.Solves m n x
  goal_eq : t.goal = setting.goal

/-- After the useless columns are eliminated, every artificial column that is left is basic at level zero. -/
theorem PhaseOneDone.eliminateUseless_spec (h : s.PhaseOneDone t m n) :
    ∃ u, eliminateUseless.run t = (.ok ⟨⟩, u) ∧ t.Reduced u m n ∧
      (∀ j, u.Artificial j → u.Eliminated j ∨ ∃ i, u.BasicIn i j) ∧
      ∀ i j, u.BasicIn i j → u.Artificial j → u.tableau.entry i n = 0 := by
  obtain ⟨u, hrun, hred, hbasis, hall⟩ := h.eliminateUseless_run
  refine ⟨u, hrun, hred, hall, ?_⟩
  intro i j hb hart
  obtain ⟨c, hcol, hc⟩ := hred.artificial_iff.mp hart
  rw [hred.rhs_eq i hb.1 (hred.canonical.row_le hb)]
  exact h.rhs_eq_zero ⟨hb.1, hbasis ▸ hb.2⟩ hcol hc

theorem PhaseOneDone.transition_run (h : s.PhaseOneDone t m n) (setting : Setting) :
    ∃ u, (transition setting).run t = (.ok ⟨⟩, u) ∧ t.PhaseTwoReady u m n setting := by
  obtain ⟨u, hrun, hred, hall, hlevel⟩ := h.eliminateUseless_spec
  obtain ⟨v, hrun', hred', hfree⟩ := hred.canonical.removeArtificials_run hall hlevel
  obtain ⟨w, hstart, hcw, hpw, hcol, -, hgoal, -, -, hsol, hprice⟩ :=
    startPhaseTwo_run hred'.canonical setting
  have helim : ∀ j, w.Eliminated j ↔ v.Eliminated j := fun j => by rw [Eliminated, Eliminated, hcol]
  refine ⟨w, ?_, hcw, hpw, hprice, ?_, ?_, ?_, ?_, ?_, hgoal⟩
  · unfold transition
    exact (run_bind_of_ok hrun).trans ((run_bind_of_ok hrun').trans hstart)
  · unfold ArtificialFree
    rw [hcol]
    exact hfree
  · rw [hcol, hred'.bare_eq, hred.bare_eq]
  · intro x
    rw [hcw.admits_iff, hcol, hsol, ← hred'.canonical.admits_iff, hred'.admits_iff, hred.admits_iff]
  · intro hblank
    exact ((hred.trans hred').blank hblank).of_solves hcw hcol hsol
  · intro x hx hsolves
    exact (hsol x).mpr ((hred.trans hred').solves_of x (fun j hj => hx j ((helim j).mpr hj)) hsolves)

end Whole

end Simplex.State

end ExactLP
