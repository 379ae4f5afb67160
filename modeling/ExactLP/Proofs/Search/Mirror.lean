import ExactLP.Proofs.Simplex.Mirror
import ExactLP.Proofs.Standard.Split
import ExactLP.Search
import Mathlib.Data.List.Forall2
import Mathlib.Data.Rat.Floor

/-!
# Proofs.Search.Mirror — a search and its mirror image

The mirror image of a problem has the opposite goal, objective and offset.  A search of it visits the same nodes,
solves the same relaxations by the same pivots, and ends with the mirrored solution or for the same kind of reason.

* `Problem.mirrored`, `Search.mirrored`: the mirror images.
* `relaxed_mirrored`: one relaxation; `isBetter_mirrored`, `reachedTarget_mirrored`: what a search decides by.
* `mirrors_explore`: the exploration, by induction on the budget of nodes.
* `solve_mirror_image`: the whole search.
-/

namespace ExactLP

/-- The problem with the opposite goal, objective and offset. -/
def Problem.mirrored (p : Problem) : Problem :=
  { p with goal := p.goal.opposite, objective := p.objective.negated, offset := -p.offset }

/-- The extra rows and the pivots are the same, and the outcomes are the same but for the sign. -/
structure Relaxation.Mirrors (r r' : Relaxation) : Prop where
  extra : r'.extra = r.extra
  pivots : r'.pivots = r.pivots
  outcome : Agree (fun q q' => q' = -q) r.outcome r'.outcome

/-- As many nodes were visited, the same candidates offered, and mirrored relaxations solved. -/
structure SearchState.Mirrors (s t : SearchState) : Prop where
  branchRows : t.branchRows = s.branchRows
  visited : t.visited = s.visited
  offered : t.offered = s.offered
  relaxations : List.Forall₂ Relaxation.Mirrors s.relaxations t.relaxations

variable {α β : Type} {split : List String} {found : Solution}

/-! ## Forms and solutions -/

section Forms

theorem Terms.splitStep_negated (result : Terms) (p : String × Rat) :
    splitStep split result.negated (p.1, -p.2) = negated (splitStep split result p) := by
  unfold splitStep negated
  dsimp only
  split
  · rw [Keyed.put_mapValues, Keyed.put_mapValues]
  · rw [Keyed.put_mapValues]

/-- Splitting a form changes no sign. -/
theorem Terms.split_negated (terms : Terms) (split : List String) :
    terms.negated.split split = (terms.split split).negated := by
  rw [split_eq_foldl, split_eq_foldl]
  suffices hgen : ∀ result : Terms, terms.negated.foldl (splitStep split) result.negated =
      negated (terms.foldl (splitStep split) result) from hgen []
  induction terms with
  | nil => exact fun _ => rfl
  | cons p rest ih =>
    intro result
    rw [List.foldl_cons, ← ih, ← splitStep_negated]
    rfl

theorem Solution.without_mirrored (s : Solution) (names : List String) :
    s.mirrored.without names = (s.without names).mirrored := by
  unfold without mirrored Keyed.mapValues
  dsimp only
  rw [List.filter_map]
  rfl

theorem floor_neg (q : Rat) : (-q).floor = -q.ceil := by
  refine eq_of_forall_le_iff fun n => ?_
  rw [Rat.le_floor_iff, le_neg, ← Int.cast_neg, ← Rat.ceil_le_iff]
  exact le_neg

theorem ceil_neg (q : Rat) : (-q).ceil = -q.floor := by
  rw [← neg_neg q, floor_neg (-q), neg_neg, neg_neg]

end Forms

namespace Search

variable {b : Search} {x : Searching α} {y : Searching β}

/-- The search of the mirrored problem. -/
def mirrored (b : Search) : Search := { b with problem := b.problem.mirrored, objective := b.objective.negated }

/-- From mirrored states both computations end with related results or with faults of one kind, in mirrored
states. -/
def Mirrors (x : Searching α) (y : Searching β) (R : α → β → Prop) : Prop :=
  InStep SearchState.Mirrors SearchState.Mirrors x y R SearchState.Mirrors

/-! ## What a search decides by -/

section Decisions

theorem integralObjective_mirrored (b : Search) : b.mirrored.integralObjective = b.integralObjective := by
  unfold integralObjective
  show ((-b.problem.offset).den == 1 && List.all (b.problem.objective.map fun p => (p.1, -p.2)) _) = _
  rw [List.all_map, Rat.neg_den]
  simp only [Function.comp_def, Rat.neg_den]
  rfl

theorem isBetter_mirrored (b : Search) (value than : Rat) :
    b.mirrored.isBetter (-value) (-than) = b.isBetter value than := by
  unfold isBetter
  show decide (-than * (b.problem.goal.opposite.sign : Int) < -value * (b.problem.goal.opposite.sign : Int)) = _
  rw [Goal.sign_opposite]
  push_cast
  rw [neg_mul_neg, neg_mul_neg]

theorem roundedBound_mirrored (b : Search) (root : Rat) : b.mirrored.roundedBound (-root) = -b.roundedBound root := by
  unfold roundedBound
  rw [show b.mirrored.problem.goal = b.problem.goal.opposite from rfl]
  cases b.problem.goal with
  | maximize =>
    show (((-root).ceil : Int) : Rat) = _
    rw [ceil_neg, Int.cast_neg]
  | minimize =>
    show (((-root).floor : Int) : Rat) = _
    rw [floor_neg, Int.cast_neg]

theorem reachedTarget_mirrored (b : Search) (root incumbent : Rat) :
    b.mirrored.reachedTarget (-root) (-incumbent) = b.reachedTarget root incumbent := by
  have hsign : ((b.mirrored.problem.goal.sign : Int) : Rat) = -(b.problem.goal.sign : Int) := by
    show ((b.problem.goal.opposite.sign : Int) : Rat) = _
    rw [Goal.sign_opposite, Int.cast_neg]
  have heq : (-incumbent == -b.roundedBound root) = (incumbent == b.roundedBound root) := by
    rw [Bool.eq_iff_iff, beq_iff_eq, beq_iff_eq, neg_inj]
  unfold reachedTarget
  dsimp only
  rw [hsign, integralObjective_mirrored, roundedBound_mirrored, heq, neg_mul_neg, neg_mul_neg]
  rfl

end Decisions

/-! ## Relaxations -/

section Relaxations

theorem agree_prepare (p : Problem) (options : SearchOptions) :
    Agree (fun b b' => b' = b.mirrored ∧ b.options = options) (prepare p options) (prepare p.mirrored options) := by
  unfold prepare
  split
  · exact rfl
  · refine (agree_self (p.standardForm true)).bind fun form form' hform => ⟨?_, rfl⟩
    subst hform
    show Search.mk _ _ _ _ (p.objective.negated.split form.split) _ = _
    rw [Terms.split_negated]
    rfl

theorem agree_start (b : Search) (extra : List Row) :
    Agree (fun p q => q = (p.1.mirrored, p.2.mirrored) ∧ p.1.tieBreak = b.options.tieBreak)
      (b.start extra) (b.mirrored.start extra) := by
  have hequations : b.mirrored.equations extra = b.equations extra := by
    unfold equations
    rw [show b.mirrored.objective.names = b.objective.names from Terms.names_negated _]
    rfl
  have hsetting : Agree (fun setting setting' => setting' = setting.mirrored ∧ setting.tieBreak = b.options.tieBreak)
      b.setting b.mirrored.setting :=
    (agree_self (Simplex.Setting.readLimit b.options.maxIterations)).bind fun _ _ hlimit => hlimit ▸ ⟨rfl, rfl⟩
  unfold start
  rw [hequations]
  refine (agree_self _).bind fun e e' he => hsetting.bind fun setting setting' hsetting => ?_
  obtain ⟨rfl, htie⟩ := hsetting
  subst he
  refine (Simplex.agree_ofEquations setting e).bind fun s s' hs => ?_
  subst hs
  exact ⟨rfl, htie⟩

/-- One relaxation: mirrored solutions after the same pivots. -/
theorem relaxed_mirrored (hfair : b.options.tieBreak.Fair) (extra : List Row) (offered : List (List Nat)) :
    Agree (fun found found' => found' = found.mirrored) (b.relaxed extra offered).1
        (b.mirrored.relaxed extra offered).1 ∧
      (b.mirrored.relaxed extra offered).2 = (b.relaxed extra offered).2 := by
  unfold relaxed
  rcases (b.agree_start extra).cases with
    ⟨⟨setting, state⟩, _, hstart, hstart', rfl, htie⟩ | ⟨e, f, hstart, hstart', hkind⟩
  · have hfair : setting.tieBreak.Fair := htie ▸ hfair
    have hends := Simplex.mirrors_solve hfair { state with offered } _ rfl
    obtain ⟨hpivots, hoffered⟩ := hends.states fun _ _ => Simplex.Mirror.sameTrace
    rw [hstart, hstart']
    exact ⟨hends.agree, Prod.ext hpivots hoffered⟩
  · rw [hstart, hstart']
    exact ⟨hkind, rfl⟩

theorem mirrors_relax (hfair : b.options.tieBreak.Fair) (extra : List Row) :
    Mirrors (b.relax extra) (b.mirrored.relax extra) fun found found' => found' = found.mirrored := by
  unfold relax
  refine InStep.get_bind fun s t hst => ?_
  rw [hst.offered]
  obtain ⟨hagree, hpivots⟩ := relaxed_mirrored hfair extra s.offered
  generalize b.relaxed extra s.offered = r at hagree hpivots ⊢
  generalize b.mirrored.relaxed extra s.offered = r' at hagree hpivots ⊢
  obtain ⟨result, pivots, offered⟩ := r
  obtain ⟨result', rest⟩ := r'
  obtain rfl := hpivots
  dsimp only at hagree ⊢
  refine (inStep_set ⟨hst.branchRows, hst.visited, rfl, ?_⟩).bind fun _ _ _ => inStep_lift (fun _ _ => id) hagree
  refine List.rel_append hst.relaxations (.cons ⟨rfl, rfl, ?_⟩ .nil)
  rcases hagree.cases with ⟨found, _, rfl, rfl, rfl⟩ | ⟨e, f, rfl, rfl, hkind⟩
  · exact rfl
  · exact hkind

end Relaxations

/-! ## The search -/

section Searching

theorem mirrors_pure {a : α} {a' : β} {R : α → β → Prop} (h : R a a') : Mirrors (pure a) (pure a') R := inStep_pure h

theorem mirrors_throw {e f : Fault} {R : α → β → Prop} (h : e.kind = f.kind) : Mirrors (throw e) (throw f) R :=
  inStep_throw (fun _ _ => id) h

theorem mirrors_nextLabel : Mirrors nextLabel nextLabel Eq := by
  unfold nextLabel
  refine InStep.get_bind fun s t hst => ?_
  rw [hst.branchRows]
  exact (inStep_set ⟨rfl, hst.visited, hst.offered, hst.relaxations⟩).bind fun _ _ _ => inStep_pure rfl

theorem mirrors_branchRows (b : Search) (name : String) (value : Rat) :
    Mirrors (b.branchRows name value) (b.branchRows name value) Eq := by
  unfold branchRows
  refine mirrors_nextLabel.bind fun first first' hfirst => mirrors_nextLabel.bind fun second second' hsecond => ?_
  subst hfirst hsecond
  split
  · exact mirrors_pure rfl
  · exact mirrors_pure rfl

/-- The mirrored solution has the same values, so it is branched on alike. -/
theorem mirrors_selectBranch (b : Search) (found : Solution) :
    Mirrors (b.selectBranch found) (b.mirrored.selectBranch found.mirrored) Eq := by
  show Mirrors (b.selectBranch found) (b.selectBranch found) Eq
  unfold selectBranch
  cases b.fractional? found with
  | none => exact mirrors_pure rfl
  | some name => exact (mirrors_branchRows b name _).bind fun _ _ hrows => mirrors_pure (congrArg some hrows)

theorem mirrors_attempt {R : α → β → Prop} (h : Mirrors x y R) : Mirrors (attempt x) (attempt y) (Agree R) := by
  intro s t hst
  have hends := h s t hst
  exact ⟨hends.agree, hends.states fun _ _ => id⟩

/-- The incumbent is mirrored, and the exploration ended for the same reason. -/
structure ExplorationMirrors (e e' : Exploration) : Prop where
  incumbent : e'.incumbent = e.incumbent.map Solution.mirrored
  ending : e'.ending = e.ending

/-- A solution is passed over in favour of an incumbent exactly when its mirror image is. -/
theorem any_isBetter_mirrored (b : Search) (found : Solution) (incumbent : Option Solution) :
    (incumbent.map Solution.mirrored).any (fun best => !b.mirrored.isBetter found.mirrored.objective best.objective) =
      incumbent.any fun best => !b.isBetter found.objective best.objective := by
  cases incumbent with
  | none => rfl
  | some best => exact congrArg (!·) (b.isBetter_mirrored found.objective best.objective)

theorem mirrors_explore (hfair : b.options.tieBreak.Fair) (root : Rat) (budget : Nat) (nodes : List Node)
    (incumbent : Option Solution) :
    Mirrors (b.explore root budget nodes incumbent)
      (b.mirrored.explore (-root) budget nodes (incumbent.map Solution.mirrored)) ExplorationMirrors := by
  have hvisit : Mirrors (modify fun s => { s with visited := s.visited + 1 } : Searching Unit)
      (modify fun s => { s with visited := s.visited + 1 }) Eq :=
    inStep_modify fun s t hst => ⟨hst.branchRows, congrArg (· + 1) hst.visited, hst.offered, hst.relaxations⟩
  -- on the budget: a visited node costs one, whatever becomes of it
  induction budget generalizing nodes incumbent with
  | zero =>
    cases nodes with
    | nil => exact mirrors_pure ⟨rfl, rfl⟩
    | cons node rest => exact mirrors_pure ⟨rfl, rfl⟩
  | succ budget ih =>
    cases nodes with
    | nil => exact mirrors_pure ⟨rfl, rfl⟩
    | cons node rest =>
      unfold explore
      refine hvisit.bind fun _ _ _ => ?_
      refine (mirrors_attempt (mirrors_relax hfair node.rows)).bind fun outcome outcome' h => ?_
      rcases h.cases with ⟨found, _, rfl, rfl, rfl⟩ | ⟨e, f, rfl, rfl, hkind⟩
      · dsimp only
        rw [any_isBetter_mirrored]
        split
        · exact ih rest incumbent
        · refine (mirrors_selectBranch b found).bind fun branches branches' hbranches => ?_
          subst hbranches
          cases branches with
          | some branches => exact ih _ incumbent
          | none =>
            dsimp only
            rw [show found.mirrored.objective = -found.objective from rfl, reachedTarget_mirrored]
            split
            · exact mirrors_pure ⟨rfl, rfl⟩
            · exact ih rest (some found)
      · dsimp only
        rw [← hkind]
        split
        · exact ih rest incumbent
        · exact mirrors_throw hkind

/-- What follows the root relaxation: its solution is final, or the exploration starts below it. -/
def below (b : Search) (root : Solution) : Option (Row × Row) → Searching Exploration
  | none => return ⟨some root, .exhausted⟩
  | some branches => do
    let budget := b.options.maxBranches.toNat - (← get).visited
    b.explore root.objective budget (Node.branch ⟨0, []⟩ branches) none

theorem run_eq_below (b : Search) :
    b.run = (do
      let root ← b.relax []
      let branches ← if b.needsIntegrality then b.selectBranch root else pure none
      b.below root branches) := by
  unfold run
  refine bind_congr fun root => ?_
  dsimp only
  split
  · refine bind_congr fun branches => ?_
    cases branches <;> rfl
  · rfl

theorem mirrors_below (hfair : b.options.tieBreak.Fair) (root : Solution) (branches : Option (Row × Row)) :
    Mirrors (b.below root branches) (b.mirrored.below root.mirrored branches) ExplorationMirrors := by
  cases branches with
  | none => exact mirrors_pure ⟨rfl, rfl⟩
  | some branches =>
    unfold below
    refine InStep.get_bind fun s t hst => ?_
    rw [hst.visited]
    exact mirrors_explore hfair root.objective _ _ none

theorem mirrors_run (hfair : b.options.tieBreak.Fair) : Mirrors b.run b.mirrored.run ExplorationMirrors := by
  rw [run_eq_below, run_eq_below]
  refine (mirrors_relax hfair []).bind fun root root' hroot => ?_
  subst hroot
  show Mirrors (if b.needsIntegrality then _ else _) (if b.needsIntegrality then _ else _) _
  split
  · exact (mirrors_selectBranch b root).bind fun _ _ hbranches => hbranches ▸ mirrors_below hfair root _
  · exact mirrors_below hfair root none

theorem mirrors_solve (hfair : b.options.tieBreak.Fair) :
    Mirrors b.solve b.mirrored.solve fun found found' => found' = found.mirrored := by
  unfold solve
  refine (mirrors_run hfair).bind fun e e' he => ?_
  rw [he.incumbent]
  cases e.incumbent with
  | some best => exact mirrors_pure (Solution.without_mirrored best _)
  | none => exact InStep.get_bind fun s t hst => mirrors_throw rfl

end Searching

/-! ## A problem and its mirror image -/

section Images

/-- With a tie-break that takes one of its candidates, a problem and its mirror image are both refused for one kind
of reason, or their searches visit as many nodes, make the same pivots in each relaxation, and end both for one kind
of reason or with mirrored solutions. -/
theorem solve_mirror_image (problem : Problem) (options : SearchOptions) (hfair : options.tieBreak.Fair) :
    Agree
      (fun b b' =>
        Agree (fun found found' => found' = found.mirrored) (b.solve.run {}).1 (b'.solve.run {}).1 ∧
          SearchState.Mirrors (b.solve.run {}).2 (b'.solve.run {}).2)
      (prepare problem options) (prepare problem.mirrored options) := by
  refine (agree_prepare problem options).mono fun b b' hb => ?_
  obtain ⟨rfl, rfl⟩ := hb
  have hends := mirrors_solve hfair {} {} ⟨rfl, rfl, rfl, .nil⟩
  exact ⟨hends.agree, hends.states fun _ _ => id⟩

/-- The objective value of what a search finds, and how many nodes it visits. -/
def solved? (problem : Problem) (options : SearchOptions) : Option (Rat × Nat) :=
  match prepare problem options with
  | .ok b => ((b.solve.run {}).1.map fun found => (found.objective, (b.solve.run {}).2.visited)).toOption
  | .error _ => none

theorem exists_of_solved? {problem : Problem} {options : SearchOptions} {q : Rat} {n : Nat}
    (h : solved? problem options = some (q, n)) :
    ∃ b found t, prepare problem options = .ok b ∧ b.solve.run {} = (.ok found, t) ∧ found.objective = q ∧
      t.visited = n := by
  unfold solved? at h
  split at h
  · rename_i b hprepare
    cases hsolve : (b.solve.run {}).1 with
    | error f =>
      rw [hsolve] at h
      cases h
    | ok found =>
      rw [hsolve] at h
      obtain ⟨hobjective, hvisited⟩ := Prod.mk.inj (Option.some.inj h)
      exact ⟨b, found, _, hprepare, Prod.ext hsolve rfl, hobjective, hvisited⟩
  · cases h

/-- Minimize `3 m + 2 n - k + 1` for integers `m` and `n` and a `k` of either sign. -/
def slantedProblem : Problem where
  goal := .minimize
  objective := [("m", 3), ("n", 2), ("k", -1)]
  offset := 1
  constraints := [.plain ⟨[("m", 2), ("n", 2)], .ge, 3, none⟩, .plain ⟨[("k", 2), ("n", -1)], .le, 1, none⟩]
  integer := ["m", "n"]
  unrestricted := ["k"]

theorem solve_mirror_image_sample :
    ∃ b b' found t t', prepare slantedProblem { tieBreak := .first } = .ok b ∧
      prepare slantedProblem.mirrored { tieBreak := .first } = .ok b' ∧ b.solve.run {} = (.ok found, t) ∧
      b'.solve.run {} = (.ok found.mirrored, t') ∧ found.objective = 7 / 2 ∧ t.visited = 2 ∧ t.Mirrors t' := by
  have hsolved : solved? slantedProblem { tieBreak := .first } = some (7 / 2, 2) := by decide +kernel
  obtain ⟨b, found, t, hprepare, hsolve, hobjective, hvisited⟩ := exists_of_solved? hsolved
  have himage := solve_mirror_image slantedProblem { tieBreak := .first } Simplex.TieBreak.fair_first
  rw [hprepare] at himage
  obtain ⟨b', hprepare', hagree, hstates⟩ := himage.exists_of_ok
  rw [hsolve] at hagree hstates
  obtain ⟨_, hsolve', rfl⟩ := hagree.exists_of_ok
  exact ⟨b, b', found, t, _, hprepare, hprepare', hsolve, Prod.ext hsolve' rfl, hobjective, hvisited, hstates⟩

end Images

end Search

end ExactLP
