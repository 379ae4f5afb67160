import ExactLP.Simplex.Pivot
import ExactLP.Proofs.Runs
import ExactLP.Proofs.Simplex.Canonical
import Mathlib.Tactic.Order

/-!
# Proofs.Simplex.Choice — which column enters and which row leaves

* `mem_improving`, `binds_iff_mem_tied`: what the candidates of the two choices are; both lists ascend.
* `entering_cases`, `leaving_cases`: the outcome of a choice with a tie-break that keeps to its
  candidates.  Under degeneracy it is the first candidate.
-/

namespace ExactLP.Simplex

/-- The tie-break takes one of its candidates. -/
def TieBreak.Fair (t : TieBreak) : Prop :=
  ∀ offered candidates, candidates ≠ [] → t offered candidates ∈ candidates

theorem TieBreak.fair_first : first.Fair := by
  intro _ candidates h
  obtain ⟨a, rest, rfl⟩ := List.exists_cons_of_ne_nil h
  exact List.mem_cons_self

/-! ## The least of some numbers -/

section Least

theorem least_le_and_mem (first : Rat) (rest : List Rat) :
    (∀ x ∈ first :: rest, least first rest ≤ x) ∧ least first rest ∈ first :: rest := by
  induction rest generalizing first with
  | nil => simp [least]
  | cons a rest ih =>
    have hfold : least first (a :: rest) = least (if a < first then a else first) rest := rfl
    obtain ⟨hle, hmem⟩ := ih (if a < first then a else first)
    rw [hfold]
    have hstart := hle _ List.mem_cons_self
    constructor
    · intro x hx
      rcases List.mem_cons.mp hx with rfl | hx
      · refine hstart.trans ?_
        split <;> order
      · rcases List.mem_cons.mp hx with rfl | hx
        · refine hstart.trans ?_
          split <;> order
        · exact hle x (List.mem_cons_of_mem _ hx)
    · rcases List.mem_cons.mp hmem with heq | hmem
      · rw [heq]
        split <;> simp
      · exact List.mem_cons_of_mem _ (List.mem_cons_of_mem _ hmem)

end Least

namespace State

variable {s : State} {m n i j k : Nat}

/-! ## Candidates for entering -/

section Improving

theorem mem_improving : j ∈ s.improving ↔ s.Usable j ∧ s.signedCost j < 0 := by
  simp only [improving, List.mem_filterMap, Prod.exists, List.mem_zipIdx_iff_getElem?,
    Option.ite_none_right_eq_some, Option.some.injEq, Bool.and_eq_true, Bool.not_eq_true',
    decide_eq_true_eq]
  constructor
  · rintro ⟨c, l, hc, ⟨⟨he, hp⟩, hcost⟩, rfl⟩
    exact ⟨⟨c, hc, he, hp⟩, hcost⟩
  · rintro ⟨⟨c, hc, he, hp⟩, hcost⟩
    exact ⟨c, j, hc, ⟨⟨he, hp⟩, hcost⟩, rfl⟩

theorem improving_pairwise (s : State) : s.improving.Pairwise (· < ·) := by
  unfold improving
  rw [List.pairwise_filterMap]
  have hidx : (s.columns.zipIdx.map Prod.snd).Pairwise (· < ·) := by
    rw [List.zipIdx_map_snd]
    exact List.pairwise_lt_range'
  apply (List.pairwise_map.mp hidx).imp
  rintro ⟨c, a⟩ ⟨c', a'⟩ hlt b hb b' hb'
  simp only [Option.ite_none_right_eq_some, Option.some.injEq] at hb hb'
  rw [← hb.2, ← hb'.2]
  exact hlt

end Improving

/-! ## Candidates for leaving -/

section Ratios

/-- Row `i` bounds column `j` first: of the rows with a positive entry it has the least ratio. -/
def Binds (s : State) (j i : Nat) : Prop :=
  i ∈ s.constraintRows ∧ 0 < s.tableau.entry i j ∧
    ∀ k ∈ s.constraintRows, 0 < s.tableau.entry k j →
      s.tableau.lastEntry i / s.tableau.entry i j ≤ s.tableau.lastEntry k / s.tableau.entry k j

theorem mem_ratios {q : Rat} :
    (q, i) ∈ s.ratios j ↔ i ∈ s.constraintRows ∧ 0 < s.tableau.entry i j ∧
      q = s.tableau.lastEntry i / s.tableau.entry i j := by
  simp only [ratios, List.mem_filterMap, Option.ite_none_right_eq_some, Option.some.injEq, Prod.mk.injEq]
  constructor
  · rintro ⟨l, hl, hpos, rfl, rfl⟩
    exact ⟨hl, hpos, rfl⟩
  · rintro ⟨hl, hpos, rfl⟩
    exact ⟨i, hl, hpos, rfl, rfl⟩

theorem ratios_pairwise (s : State) (j : Nat) : (s.ratios j).Pairwise fun a b => a.2 < b.2 := by
  unfold ratios
  rw [List.pairwise_filterMap]
  have hrows : s.constraintRows.Pairwise (· < ·) := by
    unfold constraintRows
    exact List.pairwise_map.mpr (List.pairwise_lt_range.imp fun h => Nat.succ_lt_succ h)
  refine hrows.imp fun {a b} hab p hp q hq => ?_
  simp only [Option.ite_none_right_eq_some, Option.some.injEq] at hp hq
  rw [← hp.2, ← hq.2]
  exact hab

/-- The rows of least ratio. -/
def tied (s : State) (j : Nat) : List Nat :=
  match s.ratios j with
  | [] => []
  | (ratio, i) :: rest =>
    let best := least ratio (rest.map Prod.fst)
    ((ratio, i) :: rest).filterMap fun (r, k) => if r == best then some k else none

theorem tied_eq_nil_iff : s.tied j = [] ↔ s.ratios j = [] := by
  constructor
  · intro h
    unfold tied at h
    split at h
    · assumption
    · rename_i ratio i rest hr
      have hmem := (least_le_and_mem ratio (rest.map Prod.fst)).2
      rw [← List.map_cons (f := Prod.fst) (a := (ratio, i))] at hmem
      obtain ⟨⟨r, k⟩, hrk, hbest⟩ := List.mem_map.mp hmem
      have hno := List.filterMap_eq_nil_iff.mp h (r, k) hrk
      simp only [← hbest, beq_self_eq_true, if_true] at hno
      exact absurd hno (by simp)
  · intro h
    unfold tied
    rw [h]

theorem mem_tied : i ∈ s.tied j ↔ s.Binds j i := by
  unfold tied
  split
  · rename_i hr
    refine ⟨fun h => absurd h (by simp), ?_⟩
    intro h
    have hmem := mem_ratios.mpr ⟨h.1, h.2.1, rfl⟩
    rw [hr] at hmem
    exact absurd hmem (by simp)
  · rename_i ratio k rest hr
    obtain ⟨hle, hmem⟩ := least_le_and_mem ratio (rest.map Prod.fst)
    rw [← List.map_cons (f := Prod.fst) (a := (ratio, k)), ← hr] at hle hmem
    rw [← hr]
    simp only [List.mem_filterMap, Prod.exists, Option.ite_none_right_eq_some, Option.some.injEq,
      beq_iff_eq]
    constructor
    · rintro ⟨q, l, hq, rfl, rfl⟩
      obtain ⟨h1, h2, h3⟩ := mem_ratios.mp hq
      refine ⟨h1, h2, ?_⟩
      intro k' hk' hpos
      rw [← h3]
      exact hle _ (List.mem_map.mpr ⟨_, mem_ratios.mpr ⟨hk', hpos, rfl⟩, rfl⟩)
    · intro hb
      refine ⟨_, i, mem_ratios.mpr ⟨hb.1, hb.2.1, rfl⟩, ?_, rfl⟩
      obtain ⟨⟨q, l⟩, hql, hbest⟩ := List.mem_map.mp hmem
      obtain ⟨h1, h2, h3⟩ := mem_ratios.mp hql
      refine le_antisymm ?_ (hle _ (List.mem_map.mpr ⟨_, mem_ratios.mpr ⟨hb.1, hb.2.1, rfl⟩, rfl⟩))
      rw [← hbest]
      show _ ≤ q
      rw [h3]
      exact hb.2.2 l h1 h2

theorem tied_pairwise (s : State) (j : Nat) : (s.tied j).Pairwise (· < ·) := by
  have hr := s.ratios_pairwise j
  unfold tied
  split
  · exact List.Pairwise.nil
  · rename_i ratio i rest heq
    rw [← heq, List.pairwise_filterMap]
    apply hr.imp
    rintro ⟨q, a⟩ ⟨q', a'⟩ hlt b hb b' hb'
    simp only [Option.ite_none_right_eq_some, Option.some.injEq] at hb hb'
    rw [← hb.2, ← hb'.2]
    exact hlt

end Ratios

end State

/-! ## The two choices -/

section Choices

variable {setting : Setting} {s : State} {j : Nat}

/-- The first element of an ascending list is its least. -/
theorem head_le_of_pairwise {a : Nat} {l : List Nat} (h : (a :: l).Pairwise (· < ·)) {b : Nat}
    (hb : b ∈ a :: l) : a ≤ b := by
  rcases List.mem_cons.mp hb with rfl | hb
  · exact le_rfl
  · exact (List.rel_of_pairwise_cons h hb).le

theorem choose_run (setting : Setting) (s : State) (candidates : List Nat) :
    (choose setting candidates).run s = (.ok (setting.tieBreak s.offered candidates),
      { s with offered := s.offered ++ [candidates] }) := rfl

/-- No column enters, or one that improves the goal does: the first one under degeneracy. -/
theorem entering_cases (hfair : setting.tieBreak.Fair) (s : State) :
    (s.improving = [] ∧ (entering setting).run s = (.ok none, s)) ∨
    ∃ j o, (entering setting).run s = (.ok (some j), { s with offered := o }) ∧ j ∈ s.improving ∧
      (s.degenerate = true → o = s.offered ∧ ∀ k ∈ s.improving, j ≤ k) := by
  unfold entering
  rw [run_bind_of_ok (run_get s)]
  rcases hi : s.improving with _ | ⟨j, rest⟩
  · exact Or.inl ⟨rfl, rfl⟩
  · right
    by_cases hd : s.degenerate = true
    · refine ⟨j, s.offered, ?_, List.mem_cons_self, fun _ => ⟨rfl, fun k hk => ?_⟩⟩
      · simp only [if_pos hd]
        rfl
      · exact head_le_of_pairwise (hi ▸ s.improving_pairwise) hk
    · obtain ⟨-, hbest⟩ := least_le_and_mem (s.signedCost j) (rest.map s.signedCost)
      set best := least (s.signedCost j) (rest.map s.signedCost) with hdef
      set candidates := (j :: rest).filter fun i => s.signedCost i == best with hcand
      have hne : candidates ≠ [] := by
        rw [← List.map_cons (f := s.signedCost)] at hbest
        obtain ⟨i, hi', hib⟩ := List.mem_map.mp hbest
        exact List.ne_nil_of_mem (List.mem_filter.mpr ⟨hi', by simpa using hib⟩)
      have hmem := hfair s.offered candidates hne
      refine ⟨_, s.offered ++ [candidates], ?_, (List.mem_filter.mp hmem).1, fun h => absurd h hd⟩
      simp only [if_neg hd]
      exact run_bind_of_ok (choose_run setting s candidates)

/-- No row bounds the column, or one that binds first leaves: the first such row under degeneracy. -/
theorem leaving_cases (hfair : setting.tieBreak.Fair) (s : State) (j : Nat) :
    (s.ratios j = [] ∧ (leaving setting j).run s = (.ok none, s)) ∨
    ∃ i o, (leaving setting j).run s = (.ok (some i), { s with offered := o }) ∧ s.Binds j i ∧
      (s.degenerate = true → o = s.offered ∧ ∀ k, s.Binds j k → i ≤ k) := by
  unfold leaving
  rw [run_bind_of_ok (run_get s)]
  rcases hr : s.ratios j with _ | ⟨⟨ratio, i⟩, rest⟩
  · exact Or.inl ⟨rfl, rfl⟩
  · right
    have htied : s.tied j = ((ratio, i) :: rest).filterMap fun (r, k) =>
        if r == least ratio (rest.map Prod.fst) then some k else none := by
      unfold State.tied
      rw [hr]
    have hne : s.tied j ≠ [] := fun h => by
      rw [State.tied_eq_nil_iff, hr] at h
      exact absurd h (by simp)
    by_cases hd : s.degenerate = true
    · obtain ⟨first, others, hcons⟩ := List.exists_cons_of_ne_nil hne
      refine ⟨first, s.offered, ?_, State.mem_tied.mp (hcons ▸ List.mem_cons_self), fun _ =>
        ⟨rfl, fun k hk => ?_⟩⟩
      · simp only [if_pos hd, ← htied, hcons]
        rfl
      · exact head_le_of_pairwise (hcons ▸ s.tied_pairwise j) (hcons ▸ State.mem_tied.mpr hk)
    · have hmem := hfair s.offered (s.tied j) hne
      refine ⟨_, s.offered ++ [s.tied j], ?_, State.mem_tied.mp hmem, fun h => absurd h hd⟩
      simp only [if_neg hd, ← htied]
      exact run_bind_of_ok (choose_run setting s _)

/-- A column that no row bounds has no positive entry. -/
theorem State.entry_nonpos_of_ratios_eq_nil (h : s.ratios j = []) {i : Nat} (hi : i ∈ s.constraintRows) :
    s.tableau.entry i j ≤ 0 := by
  by_contra hpos
  have hmem := State.mem_ratios.mpr ⟨hi, not_le.mp hpos, rfl⟩
  rw [h] at hmem
  exact absurd hmem (by simp)

end Choices

end ExactLP.Simplex
