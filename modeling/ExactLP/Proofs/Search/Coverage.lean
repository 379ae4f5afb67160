import ExactLP.Proofs.Search.Relaxation

/-!
# Proofs.Search.Coverage — what an exploration keeps of the admissible assignments

Throughout an exploration every admissible assignment satisfies the rows of an open node or is no better than
the incumbent.

* `Coverage`: the invariant; `Coverage.infeasible`, `Coverage.pruned`, `Coverage.branched`,
  `Coverage.improved`: each turn keeps it.
* `branchRows_of_binary`, `branchRows_of_integer`: the rows of the two branches and their labels.
* `selectBranch_run`: the two branches leave no admissible assignment out.
* `Prepared.covered_or_meets`: no admissible assignment is beyond the rounded root bound of an integral objective, and
  any other target is a threshold.
-/

namespace ExactLP

/-! ## Comparing values -/

section Better

variable {goal : Goal} {p q r : Rat}

theorem Goal.not_better_iff : ¬goal.Better p q ↔ p * goal.sign ≤ q * goal.sign := by
  rw [goal.better_iff, not_lt]

theorem Goal.not_better_trans (hpq : ¬goal.Better p q) (hqr : ¬goal.Better q r) : ¬goal.Better p r := by
  rw [not_better_iff] at hpq hqr ⊢
  exact hpq.trans hqr

theorem Goal.not_better_of_better (h : goal.Better p q) : ¬goal.Better q p := by
  rw [not_better_iff]
  exact ((goal.better_iff p q).mp h).le

end Better

namespace Search

variable {b : Search} {nodes rest : List Node} {node : Node} {incumbent : Option Solution}
  {found best : Solution} {first second : Row} {z : Assignment} {name : String} {value root : Rat}

theorem isBetter_iff {p q : Rat} : b.isBetter p q = true ↔ b.problem.goal.Better p q := by
  rw [isBetter, decide_eq_true_iff, Goal.better_iff]

/-! ## Branches -/

section Branches

/-- Two rows over standardized columns, of which every admissible assignment satisfies one. -/
structure Parts (b : Search) (first second : Row) : Prop where
  over_columns : b.OverColumns [first, second]
  cover : ∀ z, b.Admissible z → first.HoldsInclusive z ∨ second.HoldsInclusive z

theorem mem_columns_of_single {other : String} (hname : name ∈ b.binary ∨ name ∈ b.integer)
    (hother : other ∈ (b.single name).names) : other ∈ b.columns :=
  List.mem_append_right _ (List.mem_flatMap.mpr ⟨name, List.mem_append.mpr hname, hother⟩)

/-- A row over the parts of a single variable. -/
theorem over_single (hname : name ∈ b.binary ∨ name ∈ b.integer) (cmp : Comparator) (rhs : Rat)
    (label : Option String) :
    (Row.of (b.single name) cmp rhs label).names.Nodup ∧
      ∀ other ∈ (Row.of (b.single name) cmp rhs label).names, other ∈ b.columns :=
  ⟨Row.nodup_names_of (Terms.nodup_split _ _) _ _ _, fun _ hother =>
    mem_columns_of_single hname ((Terms.names_nonzero_sublist _).subset hother)⟩

theorem holds_single (cmp : Comparator) (rhs : Rat) (label : Option String) (z : Assignment) :
    (Row.of (b.single name) cmp rhs label).HoldsInclusive z ↔
      cmp.inclusive.Holds (joinParts b.form.split z name) rhs := by
  rw [Row.holdsInclusive_of, single, Terms.eval_split_single, one_mul]

/-- An admissible value of a binary is 0 or 1. -/
theorem Prepared.parts_binary (h : b.Prepared) (hname : name ∈ b.binary) (label label' : Option String) :
    b.Parts (Row.of (b.single name) .eq 0 label) (Row.of (b.single name) .eq 1 label') := by
  refine ⟨List.forall_mem_cons.mpr ⟨over_single (Or.inl hname) _ _ _,
    List.forall_mem_singleton.mpr (over_single (Or.inl hname) _ _ _)⟩, ?_⟩
  intro z hz
  rw [holds_single, holds_single, joinParts, if_neg (h.not_split name hname)]
  exact hz.binary name hname

/-- An admissible value of an integer is not strictly between the integers around a number. -/
theorem parts_integer (hname : name ∈ b.integer) (value : Rat) (label label' : Option String) :
    b.Parts (Row.of (b.single name) .le value.floor label) (Row.of (b.single name) .ge value.ceil label') := by
  refine ⟨List.forall_mem_cons.mpr ⟨over_single (Or.inr hname) _ _ _,
    List.forall_mem_singleton.mpr (over_single (Or.inr hname) _ _ _)⟩, ?_⟩
  intro z hz
  rw [holds_single, holds_single]
  obtain ⟨n, hn⟩ := mem_integers_iff.mpr (hz.integer name hname)
  rw [← hn]
  rcases le_total (n : Rat) value with hle | hge
  · exact Or.inl (Int.cast_le.mpr (Rat.le_floor_iff.mpr hle))
  · exact Or.inr (Int.cast_le.mpr (Rat.ceil_le_iff.mpr hge))

/-- The label of the branch row with a number. -/
def branchLabel (k : Nat) : String := s!"branch{k}"

theorem nextLabel_run (s : SearchState) : nextLabel.run s =
    (.ok (branchLabel (s.branchRows + 1)), { s with branchRows := s.branchRows + 1 }) := rfl

/-- A binary is 0 or 1 in the branches. -/
theorem branchRows_of_binary (hname : name ∈ b.binary) (value : Rat) (s : SearchState) :
    (b.branchRows name value).run s =
      (.ok (Row.of (b.single name) .eq 0 (some (branchLabel (s.branchRows + 1))),
        Row.of (b.single name) .eq 1 (some (branchLabel (s.branchRows + 2)))),
      { s with branchRows := s.branchRows + 2 }) := by
  unfold branchRows
  refine (run_bind_of_ok (nextLabel_run s)).trans ((run_bind_of_ok (nextLabel_run _)).trans ?_)
  rw [if_pos (List.contains_iff_mem.mpr hname)]
  rfl

/-- Any other variable is on one side of its value in the branches. -/
theorem branchRows_of_integer (hname : name ∉ b.binary) (value : Rat) (s : SearchState) :
    (b.branchRows name value).run s =
      (.ok (Row.of (b.single name) .le value.floor (some (branchLabel (s.branchRows + 1))),
        Row.of (b.single name) .ge value.ceil (some (branchLabel (s.branchRows + 2)))),
      { s with branchRows := s.branchRows + 2 }) := by
  unfold branchRows
  refine (run_bind_of_ok (nextLabel_run s)).trans ((run_bind_of_ok (nextLabel_run _)).trans ?_)
  rw [if_neg fun hmem => hname (List.contains_iff_mem.mp hmem)]
  rfl

theorem branchRows_run (h : b.Prepared) (hname : name ∈ b.binary ∨ name ∈ b.integer) (value : Rat)
    (s : SearchState) :
    ∃ first second t, (b.branchRows name value).run s = (.ok (first, second), t) ∧ b.Parts first second := by
  by_cases hbin : name ∈ b.binary
  · exact ⟨_, _, _, branchRows_of_binary hbin value s, h.parts_binary hbin _ _⟩
  · exact ⟨_, _, _, branchRows_of_integer hbin value s, parts_integer (hname.resolve_left hbin) value _ _⟩

theorem mem_of_fractional? (h : b.fractional? found = some name) : name ∈ b.binary ∨ name ∈ b.integer := by
  unfold fractional? at h
  split at h
  · rename_i x hx
    exact Or.inl (Option.some.inj h ▸ List.mem_of_find?_eq_some hx)
  · exact Or.inr (List.mem_of_find?_eq_some h)

/-- The branches at a solution leave no admissible assignment out. -/
theorem selectBranch_run (h : b.Prepared) (found : Solution) (s : SearchState) :
    ∃ chosen t, (b.selectBranch found).run s = (.ok chosen, t) ∧
      ∀ first second, chosen = some (first, second) → b.Parts first second := by
  unfold selectBranch
  cases hfrac : b.fractional? found with
  | none => exact ⟨none, s, rfl, fun _ _ heq => by cases heq⟩
  | some name =>
    obtain ⟨first, second, t, hrun, hparts⟩ := branchRows_run h (mem_of_fractional? hfrac) (found.value name) s
    refine ⟨some (first, second), t, (run_bind_of_ok hrun).trans rfl, ?_⟩
    intro _ _ heq
    obtain ⟨rfl, rfl⟩ := Prod.mk.inj (Option.some.inj heq)
    exact hparts

end Branches

/-! ## The invariant -/

section Invariant

/-- Every admissible assignment satisfies the rows of an open node or is no better than the incumbent. -/
def Coverage (b : Search) (nodes : List Node) (incumbent : Option Solution) : Prop :=
  ∀ z, b.Admissible z → (∃ node ∈ nodes, Covers node.rows z) ∨
    ∃ best, incumbent = some best ∧ ¬b.problem.goal.Better (b.value z) best.objective

theorem Coverage.infeasible (h : b.Coverage (node :: rest) incumbent)
    (hno : ∀ z, b.Admissible z → ¬Covers node.rows z) : b.Coverage rest incumbent := by
  intro z hz
  rcases h z hz with ⟨open', hmem, hcov⟩ | hbest
  · rcases List.mem_cons.mp hmem with rfl | hmem
    · exact absurd hcov (hno z hz)
    · exact Or.inl ⟨open', hmem, hcov⟩
  · exact Or.inr hbest

/-- A node whose bound is no better than the incumbent may be dropped. -/
theorem Coverage.pruned (h : b.Coverage (node :: rest) (some best))
    (hbound : b.Bounds node.rows found.objective)
    (hworse : ¬b.problem.goal.Better found.objective best.objective) : b.Coverage rest (some best) := by
  intro z hz
  rcases h z hz with ⟨open', hmem, hcov⟩ | hbest
  · rcases List.mem_cons.mp hmem with rfl | hmem
    · exact Or.inr ⟨best, rfl, Goal.not_better_trans (hbound z hz hcov) hworse⟩
    · exact Or.inl ⟨open', hmem, hcov⟩
  · exact Or.inr hbest

/-- A node may be replaced by its two branches. -/
theorem Coverage.branched (h : b.Coverage (node :: rest) incumbent) (hparts : b.Parts first second) :
    b.Coverage (node.branch (first, second) ++ rest) incumbent := by
  intro z hz
  rcases h z hz with ⟨open', hmem, hcov⟩ | hbest
  · rcases List.mem_cons.mp hmem with rfl | hmem
    · rcases hparts.cover z hz with hfirst | hsecond
      · refine Or.inl ⟨⟨open'.level + 1, open'.rows ++ [first]⟩, by simp [Node.branch], ?_⟩
        exact List.forall_mem_append.mpr ⟨hcov, List.forall_mem_singleton.mpr hfirst⟩
      · refine Or.inl ⟨⟨open'.level + 1, open'.rows ++ [second]⟩, by simp [Node.branch], ?_⟩
        exact List.forall_mem_append.mpr ⟨hcov, List.forall_mem_singleton.mpr hsecond⟩
    · exact Or.inl ⟨open', List.mem_append_right _ hmem, hcov⟩
  · exact Or.inr hbest

/-- A solution that is better than the incumbent takes its place. -/
theorem Coverage.improved (h : b.Coverage (node :: rest) incumbent)
    (hbound : b.Bounds node.rows found.objective)
    (hbetter : ∀ best, incumbent = some best → b.problem.goal.Better found.objective best.objective) :
    b.Coverage rest (some found) := by
  intro z hz
  rcases h z hz with ⟨open', hmem, hcov⟩ | ⟨best, hbest, hle⟩
  · rcases List.mem_cons.mp hmem with rfl | hmem
    · exact Or.inr ⟨found, rfl, hbound z hz hcov⟩
    · exact Or.inl ⟨open', hmem, hcov⟩
  · exact Or.inr ⟨found, rfl, Goal.not_better_trans hle (Goal.not_better_of_better (hbetter best hbest))⟩

end Invariant

/-! ## The target -/

section Target

/-- An integral objective has integer values at admissible assignments. -/
theorem Prepared.value_mem_integers (h : b.Prepared) (hint : b.integralObjective = true) (hz : b.Admissible z) :
    b.value z ∈ integers := by
  unfold integralObjective at hint
  rw [Bool.and_eq_true, beq_iff_eq, List.all_eq_true] at hint
  refine add_mem (mem_integers_iff.mpr hint.1) ?_
  rw [h.objective_eq]
  refine Terms.integral_split h.objective_nodup ?_ ?_
  · intro p hp
    have hcoef := hint.2 p hp
    rw [Bool.and_eq_true, beq_iff_eq] at hcoef
    exact mem_integers_iff.mpr hcoef.2
  · intro p hp
    have hname := hint.2 p hp
    rw [Bool.and_eq_true, Bool.or_eq_true, List.contains_iff_mem, List.contains_iff_mem] at hname
    rcases hname.1 with hbin | hinteger
    · rw [joinParts, if_neg (h.not_split p.1 hbin)]
      rcases hz.binary p.1 hbin with h0 | h1
      · rw [h0]
        exact zero_mem _
      · rw [h1]
        exact one_mem _
    · exact mem_integers_iff.mpr (hz.integer p.1 hinteger)

/-- No integer within the root bound is beyond the rounded one. -/
theorem not_better_roundedBound {q : Rat} (hq : q ∈ integers) (hroot : ¬b.problem.goal.Better q root) :
    ¬b.problem.goal.Better q (b.roundedBound root) := by
  obtain ⟨n, rfl⟩ := hq
  unfold roundedBound
  cases hgoal : b.problem.goal with
  | maximize =>
    rw [hgoal] at hroot
    exact not_lt.mpr (Int.cast_le.mpr (Rat.le_floor_iff.mpr (not_lt.mp hroot)))
  | minimize =>
    rw [hgoal] at hroot
    exact not_lt.mpr (Int.cast_le.mpr (Rat.ceil_le_iff.mpr (not_lt.mp hroot)))

/-- The incumbent is as good as the threshold's fraction of a root bound asks for. -/
def MeetsThreshold (b : Search) (root : Rat) (incumbent : Option Solution) : Prop :=
  ∃ t best, b.problem.threshold = some t ∧ incumbent = some best ∧
    t.value * (root * b.problem.goal.sign) ≤ best.objective * b.problem.goal.sign

/-- An incumbent at the target meets the threshold or bounds every admissible assignment. -/
theorem Prepared.covered_or_meets (h : b.Prepared) (hroot : b.Bounds [] root)
    (hreached : b.reachedTarget root found.objective = true) :
    b.Coverage [] (some found) ∨ b.MeetsThreshold root (some found) := by
  unfold reachedTarget at hreached
  dsimp only at hreached
  rw [Bool.or_eq_true] at hreached
  rcases hreached with hthreshold | hrounded
  · obtain ⟨t, ht, hle⟩ := (Option.any_eq_true _ _).mp hthreshold
    refine Or.inr ⟨t, found, ht, rfl, ?_⟩
    rw [mul_comm]
    exact of_decide_eq_true hle
  · rw [Bool.and_eq_true, beq_iff_eq] at hrounded
    refine Or.inl fun z hz => Or.inr ⟨found, rfl, ?_⟩
    rw [hrounded.2]
    exact not_better_roundedBound (h.value_mem_integers hrounded.1 hz) (hroot z hz (List.forall_mem_nil _))

end Target

end Search

end ExactLP
