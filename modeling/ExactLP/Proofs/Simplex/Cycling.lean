import ExactLP.Proofs.Simplex.Bland
import Mathlib.Data.Fintype.Pigeonhole
import Mathlib.Data.Fintype.Option
import Mathlib.Data.Fintype.Pi

/-!
# Proofs.Simplex.Cycling — runs without a limit

Under degeneracy a run is determined by its basis, and there are finitely many bases: it ends exactly when no
basis occurs twice.  A run that goes on departs again and again from the rule that the smallest basic column
among the tied rows leaves.

* `after?`, `Ends`, `RepeatsNoBasis`, `LeavesLeast`: the notions.
* `goes_on_of_repeat`, `exists_repeat`: a repeated basis keeps a run going, and a run that goes on repeats one.
* `ends_iff_repeatsNoBasis`, `ends_iff`: a run ends exactly when it repeats no basis, and exactly when it
  departs from the rule finitely often.
-/

namespace ExactLP.Simplex.State

variable {setting : Setting} {s t u v : State} {m n c k l limit : Nat}

/-! ## Definitions -/

section Defs

/-- What some pivots make of a state, if a run takes that many. -/
def after? (setting : Setting) : Nat → State → Option State
  | 0, s => some s
  | k + 1, s =>
    match (iterate setting true).run s with
    | (.ok .intermediate, t) => after? setting k t
    | _ => none

/-- With leave for enough pivots the run ends at an optimum or at an unbounded column. -/
def Ends (setting : Setting) (s : State) : Prop :=
  ∃ limit t, (run setting limit).run s = (.ok .optimal, t) ∨ (run setting limit).run s = (.ok .unbounded, t)

/-- No basis occurs twice in the run. -/
def RepeatsNoBasis (setting : Setting) (s : State) : Prop :=
  ∀ k l t u, k < l → after? setting k s = some t → after? setting l s = some u → t.basis ≠ u.basis

/-- Of the rows tied for the first improving column, the first one has the smallest basic column. -/
def LeavesLeast (s : State) : Prop :=
  ∀ j i k b c, j ∈ s.improving → (∀ l ∈ s.improving, j ≤ l) → s.Binds j i → (∀ l, s.Binds j l → i ≤ l) →
    s.Binds j k → s.BasicIn i b → s.BasicIn k c → b ≤ c

end Defs

/-! ## Pivots one after the other -/

section After

theorem after?_succ_eq_some_iff : after? setting (k + 1) s = some t ↔
    ∃ u, (iterate setting true).run s = (.ok .intermediate, u) ∧ after? setting k u = some t := by
  have hno : ∀ {r : Except Fault Progress} {v : State}, r ≠ .ok .intermediate →
      ¬∃ u, (r, v) = (Except.ok Progress.intermediate, u) ∧ after? setting k u = some t := by
    rintro r v hr ⟨u, heq, -⟩
    exact hr (Prod.mk.inj heq).1
  rw [after?]
  rcases (iterate setting true).run s with ⟨_ | (_ | _ | _), v⟩
  · exact iff_of_false (by simp) (hno (by simp))
  · refine ⟨fun h => ⟨v, rfl, h⟩, ?_⟩
    rintro ⟨u, heq, h⟩
    rwa [(Prod.mk.inj heq).2]
  · exact iff_of_false (by simp) (hno (by simp))
  · exact iff_of_false (by simp) (hno (by simp))

theorem after?_add (k l : Nat) (s : State) :
    after? setting (k + l) s = (after? setting k s).bind (after? setting l) := by
  induction k generalizing s with
  | zero => rw [Nat.zero_add]; rfl
  | succ k ih =>
    rw [Nat.add_right_comm, after?, after?]
    rcases (iterate setting true).run s with ⟨_ | (_ | _ | _), u⟩
    · rfl
    · exact ih u
    · rfl
    · rfl

theorem after?_of_le (hkl : k ≤ l) (h : after? setting l s = some u) :
    ∃ t, after? setting k s = some t ∧ after? setting (l - k) t = some u := by
  rw [← Nat.add_sub_cancel' hkl, after?_add, Option.bind_eq_some_iff] at h
  exact h

/-- A run that is never short of pivots goes through a sequence of states. -/
theorem exists_forever (hno : ¬∃ k, after? setting k s = none) :
    ∃ x : Nat → State, ∀ k, after? setting k s = some (x k) := by
  have hgo : ∀ k, ∃ t, after? setting k s = some t := fun k =>
    Option.ne_none_iff_exists'.mp fun h => hno ⟨k, h⟩
  choose x hx using hgo
  exact ⟨x, hx⟩

theorem after?_trans (h : after? setting k s = some t) (h' : after? setting l t = some u) :
    after? setting (k + l) s = some u := by
  rw [after?_add, h]
  exact h'

variable (hfair : setting.tieBreak.Fair)
include hfair

theorem advances_of_intermediate (hc : s.Canonical m n)
    (h : (iterate setting true).run s = (.ok .intermediate, t)) : ∃ j i, s.Advances t m n j i := by
  rcases iterate_cases hfair hc true with ⟨-, hrun⟩ | ⟨j, o, -, hno, -⟩ | ⟨j, o, -, -, -, -, hrun⟩ |
    ⟨j, i, u, -, hadv, hrun⟩
  · exact absurd (Prod.mk.inj (hrun.symm.trans h)).1 (by simp)
  · exact absurd hno (by simp)
  · exact absurd (Prod.mk.inj (hrun.symm.trans h)).1 (by simp)
  · obtain rfl := (Prod.mk.inj (hrun.symm.trans h)).2
    exact ⟨j, i, hadv⟩

/-- What pivots keep. -/
theorem after?_keeps (hc : s.Canonical m n) (hp : s.Priced) (h : after? setting k s = some t) :
    t.Canonical m n ∧ t.Priced ∧ s.SameProblem t m n ∧
      (s.latched.degenerate = true → t.latched.degenerate = true) := by
  induction k generalizing s with
  | zero =>
    obtain rfl := Option.some.inj h
    exact ⟨hc, hp, .refl _ _ _, id⟩
  | succ k ih =>
    obtain ⟨u, hstep, hrest⟩ := after?_succ_eq_some_iff.mp h
    obtain ⟨j, i, hadv⟩ := advances_of_intermediate hfair hc hstep
    obtain ⟨h1, h2, h3, h4⟩ := ih (hadv.canonical hc) (hadv.priced hc hp) hrest
    exact ⟨h1, h2, (hadv.sameProblem hc).trans h3, fun hd => h4 (hadv.latched hd)⟩

/-- A run without a limit ends exactly when some number of pivots is too many. -/
theorem ends_iff_exists_none (hc : s.Canonical m n) (hp : s.Priced) :
    s.Ends setting ↔ ∃ k, after? setting k s = none := by
  constructor
  · rintro ⟨limit, t, hrun⟩
    induction limit generalizing s with
    | zero =>
      unfold run at hrun
      rcases iterate_cases hfair hc false with ⟨hopt, -⟩ | ⟨j, o, -, -, herr⟩ | ⟨-, -, -, h, -⟩ |
        ⟨-, -, -, h, -⟩
      · refine ⟨1, Option.eq_none_iff_forall_ne_some.mpr ?_⟩
        intro u hu
        obtain ⟨w, hstep, -⟩ := after?_succ_eq_some_iff.mp hu
        obtain ⟨j, i, hadv⟩ := advances_of_intermediate hfair hc hstep
        have hmem := hadv.improving
        rw [hopt] at hmem
        exact absurd hmem (by simp)
      · rw [herr] at hrun
        rcases hrun with h | h
        · exact absurd (Prod.mk.inj h).1 (by simp)
        · exact absurd (Prod.mk.inj h).1 (by simp)
      · exact absurd h (by simp)
      · exact absurd h (by simp)
    | succ limit ih =>
      rcases hstep : (iterate setting true).run s with ⟨e | (_ | _ | _), u⟩
      · exact ⟨1, by rw [after?, hstep]⟩
      · obtain ⟨j, i, hadv⟩ := advances_of_intermediate hfair hc hstep
        have hrest : ∀ r, (run setting (limit + 1)).run s = (r, t) → (run setting limit).run u = (r, t) := by
          intro r hr
          unfold run at hr
          rwa [run_bind_of_ok hstep] at hr
        obtain ⟨k, hk⟩ := ih (hadv.canonical hc) (hadv.priced hc hp) (hrun.imp (hrest _) (hrest _))
        exact ⟨k + 1, by rw [after?, hstep]; exact hk⟩
      · exact ⟨1, by rw [after?, hstep]⟩
      · exact ⟨1, by rw [after?, hstep]⟩
  · rintro ⟨k, hk⟩
    induction k generalizing s with
    | zero => exact absurd hk (by simp [after?])
    | succ k ih =>
      rcases iterate_cases hfair hc true with ⟨-, hrun⟩ | ⟨j, o, -, h, -⟩ | ⟨j, o, -, -, -, -, hrun⟩ |
        ⟨j, i, u, -, hadv, hrun⟩
      · exact ⟨1, _, Or.inl (run_bind_of_ok hrun)⟩
      · exact absurd h (by simp)
      · exact ⟨1, _, Or.inr (run_bind_of_ok hrun)⟩
      · rw [after?, hrun] at hk
        obtain ⟨limit, t, hrest⟩ := ih (hadv.canonical hc) (hadv.priced hc hp) hk
        exact ⟨limit + 1, t, hrest.imp (run_bind_of_ok hrun).trans (run_bind_of_ok hrun).trans⟩

end After

/-! ## A repeated basis keeps a run going -/

section Repeat

variable (hfair : setting.tieBreak.Fair)
include hfair

theorem Alike.after? (h : t.Alike u) (ht : t.Canonical m n) (hu : u.Canonical m n)
    (hafter : State.after? setting k t = some v) : ∃ w, State.after? setting k u = some w := by
  induction k generalizing t u with
  | zero => exact ⟨u, rfl⟩
  | succ k ih =>
    obtain ⟨t', hstep, hrest⟩ := after?_succ_eq_some_iff.mp hafter
    obtain ⟨j, i, hadv⟩ := advances_of_intermediate hfair ht hstep
    rcases iterate_cases hfair hu true with ⟨hopt, -⟩ | ⟨-, -, -, hno, -⟩ | ⟨j', o, hj', -, hnil, hfirst, -⟩ |
      ⟨j', i', u', -, hadv', hrun⟩
    · have hmem := hadv.improving
      rw [← h.improving_eq, hopt] at hmem
      exact absurd hmem (by simp)
    · exact absurd hno (by simp)
    · have hj : j' = j := by
        have himp := h.improving_eq
        exact le_antisymm (hfirst h.degenerate.2 j (himp ▸ hadv.improving))
          ((hadv.first h.degenerate.1).1 j' (himp ▸ hj'))
      have hbinds := hadv.binds
      have hmem := mem_ratios.mpr ⟨hbinds.1, hbinds.2.1, rfl⟩
      rw [← h.ratios_eq, ← hj, hnil] at hmem
      exact absurd hmem (by simp)
    · obtain ⟨w, hw⟩ := ih (h.advances hadv hadv') (hadv.canonical ht) (hadv'.canonical hu) hrest
      exact ⟨w, after?_succ_eq_some_iff.mpr ⟨u', hrun, hw⟩⟩

variable (hc : s.Canonical m n) (hp : s.Priced) (hd : s.latched.degenerate = true)
include hc hp hd

/-- A run that repeats a basis never ends. -/
theorem goes_on_of_repeat (hkl : k < l) (ht : after? setting k s = some t) (hu : after? setting l s = some u)
    (hbasis : t.basis = u.basis) (c : Nat) : ∃ v, after? setting c s = some v := by
  obtain ⟨hct, hpt, hst, hdt⟩ := after?_keeps hfair hc hp ht
  obtain ⟨hcu, hpu, hsu, hdu⟩ := after?_keeps hfair hc hp hu
  have halike : t.Alike u := ⟨hct.tableau_eq hcu hbasis.symm (hst.system.symm.trans hsu.system) hpt hpu,
    by rw [hsu.columns_eq, hst.columns_eq], hbasis.symm, by rw [hsu.goal_eq, hst.goal_eq], hdt hd, hdu hd⟩
  have hround : after? setting (l - k) t = some u := by
    obtain ⟨t', ht', hrest⟩ := after?_of_le hkl.le hu
    rwa [Option.some.inj (ht'.symm.trans ht)] at hrest
  -- from `u` on, by going round once more
  have hafter : ∀ c, ∃ v, after? setting c u = some v := by
    intro c
    induction c using Nat.strong_induction_on with
    | _ c ih =>
      have hfrom : ∃ v, after? setting c t = some v := by
        by_cases hcl : c ≤ l - k
        · obtain ⟨v, hv, -⟩ := after?_of_le hcl hround
          exact ⟨v, hv⟩
        · obtain ⟨v, hv⟩ := ih (c - (l - k)) (by omega)
          have hsum := after?_trans hround hv
          rw [Nat.add_sub_cancel' (by omega)] at hsum
          exact ⟨v, hsum⟩
      obtain ⟨v, hv⟩ := hfrom
      exact halike.after? hfair hct hcu hv
  by_cases hcl : c ≤ l
  · obtain ⟨v, hv, -⟩ := after?_of_le hcl hu
    exact ⟨v, hv⟩
  · obtain ⟨v, hv⟩ := hafter (c - l)
    have hsum := after?_trans hu hv
    rw [Nat.add_sub_cancel' (by omega)] at hsum
    exact ⟨v, hsum⟩

end Repeat

/-! ## A run that goes on repeats a basis -/

section Finite

/-- The basic columns by row, as one of finitely many functions. -/
def basisCode (m n : Nat) (s : State) : Fin (m + 1) → Option (Fin n) := fun i =>
  (s.basis[(i : Nat)]?).join.bind fun j => if h : j.toNat < n then some ⟨j.toNat, h⟩ else none

theorem Canonical.basisCode_of_basicIn (hc : s.Canonical m n) {i j : Nat} (h : s.BasicIn i j) :
    s.basisCode m n ⟨i, Nat.lt_succ_of_le (hc.row_le h)⟩ = some ⟨j, hc.basic_lt h⟩ := by
  have hj := hc.basic_lt h
  simp [basisCode, h.2, hj]

theorem Canonical.basisCode_of_none {i : Nat} (hi : i < m + 1) (h : s.basis[i]? = some none) :
    s.basisCode m n ⟨i, hi⟩ = none := by
  simp [basisCode, h]

theorem Canonical.basis_eq_of_basisCode (ht : t.Canonical m n) (hu : u.Canonical m n)
    (h : t.basisCode m n = u.basisCode m n) : t.basis = u.basis := by
  refine List.ext_getElem? ?_
  intro i
  rcases Nat.lt_or_ge i (m + 1) with hlt | hge
  · rcases Nat.eq_zero_or_pos i with rfl | hpos
    · rw [ht.basis_zero, hu.basis_zero]
    · have hi := congrFun h ⟨i, hlt⟩
      rcases ht.slot i hpos (by omega) with htn | ⟨j, hj⟩ <;>
        rcases hu.slot i hpos (by omega) with hun | ⟨j', hj'⟩
      · rw [htn, hun]
      · rw [Canonical.basisCode_of_none hlt htn, hu.basisCode_of_basicIn hj'] at hi
        exact absurd hi (by simp)
      · rw [Canonical.basisCode_of_none hlt hun, ht.basisCode_of_basicIn hj] at hi
        exact absurd hi (by simp)
      · rw [ht.basisCode_of_basicIn hj, hu.basisCode_of_basicIn hj'] at hi
        have hjj : j = j' := by simpa using hi
        rw [hj.2, hj'.2, hjj]
  · rw [List.getElem?_eq_none (by rw [ht.basis_length]; exact hge),
      List.getElem?_eq_none (by rw [hu.basis_length]; exact hge)]

variable (hfair : setting.tieBreak.Fair) (hc : s.Canonical m n) (hp : s.Priced)
include hfair hc hp

/-- A run that goes on repeats a basis, after any number of pivots. -/
theorem exists_repeat {x : Nat → State} (hx : ∀ k, after? setting k s = some (x k)) (start : Nat) :
    ∃ k l, start ≤ k ∧ k < l ∧ (x k).basis = (x l).basis := by
  obtain ⟨a, b, hne, heq⟩ := Finite.exists_ne_map_eq_of_infinite fun a : Nat =>
    (x (start + a)).basisCode m n
  have hcanon : ∀ k, (x k).Canonical m n := fun k => (after?_keeps hfair hc hp (hx k)).1
  have hbasis := (hcanon (start + a)).basis_eq_of_basisCode (hcanon (start + b)) heq
  rcases Nat.lt_or_gt_of_ne hne with hlt | hgt
  · exact ⟨start + a, start + b, by omega, by omega, hbasis⟩
  · exact ⟨start + b, start + a, by omega, by omega, hbasis.symm⟩

end Finite

/-! ## When a run ends -/

section Ends

variable (hfair : setting.tieBreak.Fair) (hc : s.Canonical m n) (hp : s.Priced)
  (hd : s.latched.degenerate = true)
include hfair hc hp hd

/-- A run that goes on departs from the rule after any number of pivots. -/
theorem exists_departure {x : Nat → State} (hx : ∀ k, after? setting k s = some (x k)) (start : Nat) :
    ∃ k ≥ start, ¬(x k).LeavesLeast := by
  obtain ⟨k, l, hk, hkl, hbasis⟩ := exists_repeat hfair hc hp hx start
  have hkeep : ∀ a, (x a).Canonical m n ∧ (x a).Priced ∧ (x a).latched.degenerate = true := by
    intro a
    obtain ⟨h1, h2, -, h4⟩ := after?_keeps hfair hc hp (hx a)
    exact ⟨h1, h2, h4 hd⟩
  have hadv : ∀ a, ∃ j i, (x a).Advances (x (a + 1)) m n j i := by
    intro a
    obtain ⟨t, ht, hone⟩ := after?_of_le (show a ≤ a + 1 by omega) (hx (a + 1))
    obtain rfl := Option.some.inj (ht.symm.trans (hx a))
    rw [Nat.add_sub_cancel_left] at hone
    obtain ⟨u, hstep, hu⟩ := after?_succ_eq_some_iff.mp hone
    obtain rfl := Option.some.inj hu
    exact advances_of_intermediate hfair (hkeep a).1 hstep
  choose enter leave hadv using hadv
  have hcircuit : Circuit (fun a => x (k + a)) (fun a => enter (k + a)) (fun a => leave (k + a)) (l - k) m n :=
    ⟨fun a _ => (hkeep _).1, fun a _ => (hkeep _).2.1, fun a _ => (hkeep _).2.2, fun a _ => hadv (k + a), by
      rw [Nat.add_sub_cancel' hkl.le, Nat.add_zero, hbasis]⟩
  obtain ⟨a, -, r, q, c, hbinds, hq, hcr, hlt⟩ := hcircuit.exists_departure (by omega)
  refine ⟨k + a, by omega, ?_⟩
  intro hleast
  obtain ⟨hfirst, hrow, -⟩ := (hadv (k + a)).first (hkeep (k + a)).2.2
  have hle := hleast _ _ r q c (hadv (k + a)).improving hfirst (hadv (k + a)).binds hrow hbinds hq hcr
  omega

/-- A run ends exactly when it departs from the rule finitely often. -/
theorem ends_iff : s.Ends setting ↔
    ∃ start, ∀ k ≥ start, ∀ t, after? setting k s = some t → t.LeavesLeast := by
  rw [ends_iff_exists_none hfair hc hp]
  constructor
  · rintro ⟨start, hnone⟩
    refine ⟨start, ?_⟩
    intro k hk t ht
    obtain ⟨u, hu, -⟩ := after?_of_le hk ht
    rw [hnone] at hu
    exact absurd hu (by simp)
  · rintro ⟨start, hleast⟩
    by_contra hno
    obtain ⟨x, hx⟩ := exists_forever hno
    obtain ⟨k, hk, hnot⟩ := exists_departure hfair hc hp hd hx start
    exact hnot (hleast k hk (x k) (hx k))

/-- A run ends exactly when it repeats no basis. -/
theorem ends_iff_repeatsNoBasis : s.Ends setting ↔ s.RepeatsNoBasis setting := by
  rw [ends_iff_exists_none hfair hc hp]
  constructor
  · rintro ⟨c, hnone⟩ k l t u hkl ht hu hbasis
    obtain ⟨v, hv⟩ := goes_on_of_repeat hfair hc hp hd hkl ht hu hbasis c
    rw [hnone] at hv
    exact absurd hv (by simp)
  · intro hrep
    by_contra hno
    obtain ⟨x, hx⟩ := exists_forever hno
    obtain ⟨k, l, -, hkl, hbasis⟩ := exists_repeat hfair hc hp hx 0
    exact hrep k l (x k) (x l) hkl (hx k) (hx l) hbasis

end Ends

end ExactLP.Simplex.State
