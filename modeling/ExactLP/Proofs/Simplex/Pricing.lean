import ExactLP.Simplex.Phases
import ExactLP.Proofs.Simplex.Running

/-!
# Proofs.Simplex.Pricing — objective rows before the first pivot of a phase

Both phases start alike: row 0 is written from the columns and then cancelled at basic columns.  The
constraint rows stay, so the state stays canonical; afterwards it is priced, and the objective row stands
for the weights that it was written from.

* `reprice_run`: the loop that cancels costs.
* `startPhaseOne_run`, `startPhaseTwo_run`: the state at the start of a phase.
-/

open Finset

namespace ExactLP.Simplex

open Grid (SameSystem)

namespace State

variable {s t : State} {m n i j k : Nat}

/-! ## Rows written from the columns -/

section Written

/-- A value read off a column; there is none outside. -/
def columnValue (f : Column → Rat) (columns : List Column) (j : Nat) : Rat :=
  match columns[j]? with
  | some c => f c
  | none => 0

theorem getD_written (f : Column → Rat) (columns : List Column) (j : Nat) :
    (columns.map f ++ [0]).getD j 0 = columnValue f columns j := by
  rw [List.getD_eq_getElem?_getD, columnValue]
  rcases Nat.lt_trichotomy j columns.length with hlt | heq | hgt
  · rw [List.getElem?_append_left (by simpa using hlt), List.getElem?_map,
      List.getElem?_eq_getElem hlt]
    rfl
  · rw [List.getElem?_append_right (by simp [heq]), List.getElem?_eq_none (l := columns) heq.ge]
    simp [heq]
  · have hlen : (columns.map f ++ [0]).length ≤ j := by
      rw [List.length_append, List.length_map, List.length_singleton]
      omega
    rw [List.getElem?_eq_none hlen, List.getElem?_eq_none (by omega)]
    rfl

/-- The weight of a column in phase one: artificial columns count. -/
def artificialWeight (s : State) : Nat → Rat :=
  columnValue (fun c => if c.role.isArtificial then 1 else 0) s.columns

/-- The weight of a column in phase two: its coefficient, unless it is eliminated. -/
def objectiveWeight (s : State) (objective : Terms) : Nat → Rat :=
  columnValue (fun c => if c.eliminated then 0 else objective.coefficient c.name) s.columns

end Written

/-! ## Cancelling costs -/

section Cancelling

/-- `t` is `s` with another objective row. -/
structure Repriced (s t : State) (m n : Nat) : Prop where
  state_eq : ∃ g, t = { s with tableau := g }
  shaped : t.tableau.Shaped (m + 1) (n + 1)
  rows : ∀ k ≠ 0, ∀ l, t.tableau.entry k l = s.tableau.entry k l

theorem Repriced.canonical (h : s.Repriced t m n) (hc : s.Canonical m n) : t.Canonical m n := by
  obtain ⟨⟨g, rfl⟩, hs, hrows⟩ := h
  constructor
  · exact hs
  · exact hc.columns_length
  · exact hc.basis_length
  · exact hc.basis_zero
  · intro i h1 h2
    rw [hrows i (by omega)]
    exact hc.rhs_nonneg i h1 h2
  · exact hc.slot
  · intro i h1 h2 l
    rw [hrows i (by omega)]
    exact hc.empty i h1 h2 l
  · exact hc.usable
  · intro i j hb
    have h1 := hb.1
    rw [hrows i (by omega)]
    exact hc.unit i j hb
  · intro i j hb k h1 h2 hk
    rw [hrows k (by omega)]
    exact hc.zero_elsewhere i j hb k h1 h2 hk

theorem Repriced.solves_iff (h : s.Repriced t m n) (x : ColumnPoint) :
    t.tableau.Solves m n x ↔ s.tableau.Solves m n x :=
  Grid.solves_congr (fun i h1 _ => h.rows i (by omega)) x

theorem Repriced.trans {u : State} (h : s.Repriced t m n) (h' : t.Repriced u m n) : s.Repriced u m n := by
  obtain ⟨g, rfl⟩ := h.state_eq
  obtain ⟨g', rfl⟩ := h'.state_eq
  exact ⟨⟨g', rfl⟩, h'.shaped, fun k hk l => (h'.rows k hk l).trans (h.rows k hk l)⟩

theorem Repriced.basicIn_iff (h : s.Repriced t m n) : t.BasicIn i j ↔ s.BasicIn i j := by
  obtain ⟨g, rfl⟩ := h.state_eq
  exact Iff.rfl

/-- Cancelling the cost of a basic column by its row. -/
theorem Canonical.cancel_cost (hc : s.Canonical m n) (hb : s.BasicIn i j) :
    ∃ t, (onTableau fun g => g.zeroOut 0 i j).run s = (.ok ⟨⟩, t) ∧ s.Repriced t m n ∧
      s.tableau.SameSystem t.tableau m n ∧ t.tableau.entry 0 j = 0 ∧
      ∀ k b, k ≠ i → s.BasicIn k b → t.tableau.entry 0 b = s.tableau.entry 0 b := by
  have him := hc.row_le hb
  have hone := hc.unit i j hb
  have hjn := hc.basic_lt hb
  obtain ⟨g, hz, hs, h0, hk⟩ := Grid.zeroOut_spec hc.shaped (Nat.succ_pos m) (show i < m + 1 by omega)
    (show j < n + 1 by omega) (by rw [hone]; exact one_ne_zero)
  refine ⟨_, onTableau_run hz, ⟨⟨g, rfl⟩, hs, hk⟩,
    Grid.sameSystem_of_cancel ⟨hb.1, him⟩ h0 hk, ?_, ?_⟩
  · show g.entry 0 j = 0
    rw [h0, hone, div_one, mul_one, sub_self]
  · intro k b hki hbk
    show g.entry 0 b = _
    rw [h0, hc.zero_elsewhere k b hbk i hb.1 him (Ne.symm hki), mul_zero, sub_zero]

/-- A loop that cancels the cost of the basic columns with a property leaves the other basic costs. -/
theorem reprice_run (hc : s.Canonical m n) (q : Nat → Prop) [DecidablePred q] {f : Nat → Step Unit}
    (hf : ∀ t : State, t.basis = s.basis → t.columns = s.columns → ∀ i, 1 ≤ i → i ≤ m →
      ((∀ j, s.BasicIn i j → ¬q j) ∧ (f i).run t = (.ok ⟨⟩, t)) ∨
        ∃ j, s.BasicIn i j ∧ q j ∧ (f i).run t = (onTableau fun g => g.zeroOut 0 i j).run t) :
    ∃ t, (forConstraintRows f).run s = (.ok ⟨⟩, t) ∧ s.Repriced t m n ∧
      s.tableau.SameSystem t.tableau m n ∧
      ∀ i j, s.BasicIn i j → t.tableau.entry 0 j = if q j then 0 else s.tableau.entry 0 j := by
  let P : List Nat → State → Prop := fun done t => s.Repriced t m n ∧
    s.tableau.SameSystem t.tableau m n ∧ ∀ i j, s.BasicIn i j →
      t.tableau.entry 0 j = if i ∈ done ∧ q j then 0 else s.tableau.entry 0 j
  have hloop := run_forM (l := s.constraintRows) (f := f) (P := P) (s := s) ?_
    ⟨⟨⟨s.tableau, rfl⟩, hc.shaped, fun _ _ _ => rfl⟩, SameSystem.refl _ _ _, fun i j _ => by simp⟩
  · obtain ⟨t, hrun, h1, h2, h3⟩ := hloop
    unfold forConstraintRows
    refine ⟨t, (run_bind_of_ok (run_get s)).trans hrun, h1, h2, ?_⟩
    intro i j hb
    have hmem := hc.mem_constraintRows.mpr ⟨hb.1, hc.row_le hb⟩
    simp only [h3 i j hb, hmem, true_and]
  · rintro before a after hl t ⟨h1, h2, h3⟩
    obtain ⟨ha1, ha2⟩ := hc.mem_constraintRows.mp (hl ▸ by simp : a ∈ s.constraintRows)
    have hother : ∀ i j, i ≠ a → s.BasicIn i j → (i ∈ before ++ [a] ∧ q j ↔ i ∈ before ∧ q j) := by
      intro i j hne _
      simp [hne]
    obtain ⟨g, ht⟩ := h1.state_eq
    rcases hf t (by rw [ht]) (by rw [ht]) a ha1 ha2 with ⟨hno, hrun⟩ | ⟨j, hb, hq, hrun⟩
    · refine ⟨t, hrun, h1, h2, ?_⟩
      intro i j hb
      rw [h3 i j hb]
      by_cases hia : i = a
      · have hnq := hno j (hia ▸ hb)
        simp [hnq]
      · simp only [hother i j hia hb]
    · obtain ⟨u, hrun', h4, h5, h6, h7⟩ := (h1.canonical hc).cancel_cost (h1.basicIn_iff.mpr hb)
      refine ⟨u, hrun.trans hrun', h1.trans h4, h2.trans h5, ?_⟩
      intro i b hib
      by_cases hia : i = a
      · have hbj : b = j := (hia ▸ hib : s.BasicIn a b).column_unique hb
        rw [hbj, h6, if_pos ⟨by simp [hia], hq⟩]
      · rw [h7 i b hia (h1.basicIn_iff.mpr hib), h3 i b hib]
        simp only [hother i b hia hib]

/-- Writing the objective row leaves the constraint rows, and the row stands for what was written. -/
theorem Canonical.write_objective (hc : s.Canonical m n) (f : Column → Rat) :
    ∃ g, s.tableau.setRow 0 (s.columns.map f ++ [0]) = .ok g ∧
      s.Repriced { s with tableau := g } m n ∧ (∀ j, g.entry 0 j = columnValue f s.columns j) ∧
      g.Prices m n fun j => -columnValue f s.columns j := by
  have hlen : (s.columns.map f ++ [0]).length = n + 1 := by simp [hc.columns_length]
  obtain ⟨g, hset, hs, h0, hk⟩ := Grid.setRow_spec hc.shaped (Nat.succ_pos m) hlen
  have hentry : ∀ j, g.entry 0 j = columnValue f s.columns j := fun j =>
    (h0 j).trans (getD_written f s.columns j)
  refine ⟨g, hset, ⟨⟨g, rfl⟩, hs, hk⟩, hentry, ?_⟩
  intro x _
  have hrhs : columnValue f s.columns n = 0 := by
    rw [columnValue, List.getElem?_eq_none (by rw [hc.columns_length])]
  simp only [Grid.residual, hentry, hrhs, sub_zero, neg_mul, sum_neg_distrib, neg_neg]

end Cancelling

/-! ## The starts of the two phases -/

section Starts

/-- A basic entry of a canonical state is empty or a column. -/
theorem Canonical.basisEntry_cases (hc : s.Canonical m n) (h1 : 1 ≤ i) (h2 : i ≤ m) :
    (s.basisEntry i = .ok none ∧ ∀ j, ¬s.BasicIn i j) ∨
      ∃ (j : Nat) (c : Column), s.basisEntry i = .ok (some (j : Int)) ∧ s.BasicIn i j ∧
        s.columns[j]? = some c := by
  rcases hc.slot i h1 h2 with hnone | ⟨j, hj⟩
  · refine Or.inl ⟨basisEntry_eq hnone, ?_⟩
    intro j hj
    rw [hj.2] at hnone
    exact absurd hnone (by simp)
  · obtain ⟨c, hcol, -⟩ := hc.usable i j hj
    exact Or.inr ⟨j, c, basisEntry_eq hj.2, hj, hcol⟩

theorem Canonical.cancelArtificial_run (hc : s.Canonical m n) (htb : t.basis = s.basis)
    (htc : t.columns = s.columns) (h1 : 1 ≤ i) (h2 : i ≤ m) :
    ((∀ j, s.BasicIn i j → ¬s.artificialWeight j = 1) ∧ (cancelArtificial i).run t = (.ok ⟨⟩, t)) ∨
      ∃ j, s.BasicIn i j ∧ s.artificialWeight j = 1 ∧
        (cancelArtificial i).run t = (onTableau fun g => g.zeroOut 0 i j).run t := by
  have hentry : t.basisEntry i = s.basisEntry i := by rw [basisEntry, basisEntry, htb]
  have hrun : ∀ e, s.basisEntry i = .ok e →
      (liftM (t.basisEntry i) : Step (Option Int)).run t = (.ok e, t) := fun e he => by
    rw [run_lift, hentry, he]
  unfold cancelArtificial
  rw [run_bind_of_ok (run_get t)]
  rcases hc.basisEntry_cases h1 h2 with ⟨he, hno⟩ | ⟨j, c, he, hb, hcol⟩
  · exact Or.inl ⟨fun j hj => absurd hj (hno j), run_bind_of_ok (hrun _ he)⟩
  · have hw : s.artificialWeight j = if c.role.isArtificial then 1 else 0 := by
      rw [artificialWeight, columnValue, hcol]
    have hcrun : (liftM (t.column j) : Step Column).run t = (.ok c, t) := by
      rw [run_lift, column_eq (htc ▸ hcol)]
    rw [run_bind_of_ok (hrun _ he)]
    cases ha : c.role.isArtificial with
    | true =>
      refine Or.inr ⟨j, hb, by rw [hw, ha]; rfl, ?_⟩
      refine (run_bind_of_ok hcrun).trans ?_
      simp only [ha, if_true]
    | false =>
      refine Or.inl ⟨?_, ?_⟩
      · intro b hb'
        rw [hb'.column_unique hb, hw, ha]
        exact zero_ne_one
      · refine (run_bind_of_ok hcrun).trans ?_
        simp only [ha]
        rfl

theorem Canonical.cancelBasic_run (hc : s.Canonical m n) (htb : t.basis = s.basis) (h1 : 1 ≤ i)
    (h2 : i ≤ m) :
    ((∀ j, s.BasicIn i j → ¬True) ∧ (cancelBasic i).run t = (.ok ⟨⟩, t)) ∨
      ∃ j, s.BasicIn i j ∧ True ∧ (cancelBasic i).run t = (onTableau fun g => g.zeroOut 0 i j).run t := by
  have hentry : t.basisEntry i = s.basisEntry i := by rw [basisEntry, basisEntry, htb]
  unfold cancelBasic
  rw [run_bind_of_ok (run_get t)]
  rcases hc.basisEntry_cases h1 h2 with ⟨he, hno⟩ | ⟨j, c, he, hb, -⟩
  · refine Or.inl ⟨fun j hj => absurd hj (hno j), run_bind_of_ok (a := none) (t := t) ?_⟩
    rw [run_lift, hentry, he]
  · refine Or.inr ⟨j, hb, trivial, run_bind_of_ok (a := some (j : Int)) (t := t) ?_⟩
    rw [run_lift, hentry, he]

/-- The start of phase one: the constraint rows stay, and the objective row stands for the sum of the
artificial columns. -/
theorem startPhaseOne_run (hc : s.Canonical m n) :
    ∃ t, startPhaseOne.run s = (.ok ⟨⟩, t) ∧ t.Canonical m n ∧ t.Priced ∧ t.columns = s.columns ∧
      t.basis = s.basis ∧ t.goal = .minimize ∧ t.phase = .one ∧ t.degenerate = s.degenerate ∧
      (∀ x, t.tableau.Solves m n x ↔ s.tableau.Solves m n x) ∧
      t.tableau.Prices m n t.artificialWeight := by
  set s₁ : State := { s with phase := .one, goal := .minimize } with hs₁
  have hc₁ : s₁.Canonical m n := hc.congr rfl rfl rfl
  obtain ⟨g, hset, hrep, hentry, hprice⟩ :=
    hc₁.write_objective fun c => if c.role.isArtificial then -1 else 0
  set s₂ : State := { s₁ with tableau := g } with hs₂
  have hc₂ : s₂.Canonical m n := hrep.canonical hc₁
  obtain ⟨t, hrun, hrep', hsys, hcost⟩ := reprice_run hc₂ (fun j => s₂.artificialWeight j = 1)
    (f := cancelArtificial) fun t hb hcol i h1 h2 => hc₂.cancelArtificial_run hb hcol h1 h2
  obtain ⟨g', rfl⟩ := hrep'.state_eq
  have hneg : (fun j => -columnValue (fun c => if c.role.isArtificial then (-1 : Rat) else 0) s₁.columns j) =
      s.artificialWeight := by
    funext j
    simp only [artificialWeight, columnValue]
    cases s.columns[j]? with
    | none => exact neg_zero
    | some c => cases ha : c.role.isArtificial <;> simp [ha]
  refine ⟨_, ?_, hrep'.canonical hc₂, ?_, rfl, rfl, rfl, rfl, rfl, ?_, ?_⟩
  · unfold startPhaseOne
    refine (run_bind_of_ok (run_modify s _)).trans ?_
    refine (run_bind_of_ok (onState_run (t := s₂) ?_)).trans hrun
    show (s.tableau.setRow 0 (artificialRow s.columns) >>= _) = _
    rw [show s.tableau.setRow 0 (artificialRow s.columns) = .ok g from hset]
    rfl
  · intro i j hb
    rw [hcost i j hb]
    split
    · rfl
    · rename_i hnot
      show g.entry 0 j = 0
      rw [hentry, columnValue]
      change ¬columnValue _ s.columns j = 1 at hnot
      rw [columnValue] at hnot
      show (match s.columns[j]? with | some c => _ | none => _) = _
      cases hcol : s.columns[j]? with
      | none => rfl
      | some c =>
        rw [hcol] at hnot
        cases ha : c.role.isArtificial with
        | true => simp [ha] at hnot
        | false => simp [ha]
  · intro x
    exact (hrep'.solves_iff x).trans (hrep.solves_iff x)
  · have hp := hprice.of_sameSystem hsys
    rw [hneg] at hp
    exact hp

/-- The start of phase two: the constraint rows stay, and the objective row stands for the objective. -/
theorem startPhaseTwo_run (hc : s.Canonical m n) (setting : Setting) :
    ∃ t, (startPhaseTwo setting).run s = (.ok ⟨⟩, t) ∧ t.Canonical m n ∧ t.Priced ∧
      t.columns = s.columns ∧ t.basis = s.basis ∧ t.goal = setting.goal ∧ t.phase = .two ∧
      t.degenerate = s.degenerate ∧ (∀ x, t.tableau.Solves m n x ↔ s.tableau.Solves m n x) ∧
      t.tableau.Prices m n (t.objectiveWeight setting.objective) := by
  set s₁ : State := { s with phase := .two, goal := setting.goal } with hs₁
  have hc₁ : s₁.Canonical m n := hc.congr rfl rfl rfl
  obtain ⟨g, hset, hrep, hentry, hprice⟩ :=
    hc₁.write_objective fun c => if c.eliminated then 0 else -setting.objective.coefficient c.name
  set s₂ : State := { s₁ with tableau := g } with hs₂
  have hc₂ : s₂.Canonical m n := hrep.canonical hc₁
  obtain ⟨t, hrun, hrep', hsys, hcost⟩ := reprice_run hc₂ (fun _ => True)
    (f := cancelBasic) fun t hb _ i h1 h2 => hc₂.cancelBasic_run hb h1 h2
  obtain ⟨g', rfl⟩ := hrep'.state_eq
  have hneg : (fun j => -columnValue (fun c => if c.eliminated then 0 else
      -setting.objective.coefficient c.name) s₁.columns j) = s.objectiveWeight setting.objective := by
    funext j
    simp only [objectiveWeight, columnValue]
    cases s.columns[j]? with
    | none => exact neg_zero
    | some c => cases he : c.eliminated <;> simp [he]
  refine ⟨_, ?_, hrep'.canonical hc₂, ?_, rfl, rfl, rfl, rfl, rfl, ?_, ?_⟩
  · unfold startPhaseTwo
    refine (run_bind_of_ok (run_modify s _)).trans ?_
    refine (run_bind_of_ok (onState_run (t := s₂) ?_)).trans hrun
    show (s.tableau.setRow 0 (objectiveRow s.columns setting.objective) >>= _) = _
    rw [show s.tableau.setRow 0 (objectiveRow s.columns setting.objective) = .ok g from hset]
    rfl
  · intro i j hb
    rw [hcost i j hb, if_pos trivial]
  · intro x
    exact (hrep'.solves_iff x).trans (hrep.solves_iff x)
  · have hp := hprice.of_sameSystem hsys
    rw [hneg] at hp
    exact hp

end Starts

end State

end ExactLP.Simplex
