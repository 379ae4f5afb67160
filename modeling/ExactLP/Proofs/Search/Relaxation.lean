import ExactLP.Proofs.Equations.Points
import ExactLP.Proofs.Simplex.Optimality
import ExactLP.Proofs.Standard.Compile
import ExactLP.Search

/-!
# Proofs.Search.Relaxation — what a relaxation says of the admissible assignments

An assignment of the standardized columns is admissible when it is nonnegative, satisfies the standard form
with strict comparators read as inclusive, and is integral where it must be.  A relaxation bounds those that
its extra rows cover.

* `Admissible`, `value`, `Covers`: the assignments, their values, and the ones that extra rows leave.
* `Prepared`: what a search keeps of the problem that it was made from.
* `relaxed_verdict`: what becomes of a relaxation that starts.
* `Relaxes`, `relax_run`: a relaxation bounds what its rows leave, or they leave nothing, or it fails.
-/

namespace ExactLP

/-- An offset does not change which value is better. -/
theorem Goal.better_add_left_iff (goal : Goal) (q a b : Rat) :
    goal.Better (q + a) (q + b) ↔ goal.Better a b := by
  cases goal with
  | maximize => exact add_lt_add_iff_left q
  | minimize => exact add_lt_add_iff_left q

namespace Search

variable {b : Search} {problem : Problem} {options : SearchOptions} {extra : List Row} {z : Assignment}
  {offered : List (List Nat)} {f : Fault} {name : String}

/-! ## Admissible assignments -/

section Admissible

/-- The form of a single variable over its parts. -/
def single (b : Search) (name : String) : Terms := Terms.split [(name, 1)] b.form.split

/-- The standardized columns: the names in the objective and in the rows, and those of the variables that must
be integral. -/
def columns (b : Search) : List String :=
  b.objective.names ++ b.form.rows.flatMap Row.names ++ (b.binary ++ b.integer).flatMap fun name =>
    (b.single name).names

/-- A nonnegative assignment that satisfies the standard form, strict comparators read as inclusive, and has
integral values where it must. -/
structure Admissible (b : Search) (z : Assignment) : Prop where
  nonneg : ∀ name ∈ b.columns, 0 ≤ z name
  holds : ∀ row ∈ b.form.rows, row.HoldsInclusive z
  binary : ∀ name ∈ b.binary, z name = 0 ∨ z name = 1
  integer : ∀ name ∈ b.integer, (joinParts b.form.split z name).den = 1

/-- The objective value of an assignment. -/
def value (b : Search) (z : Assignment) : Rat := b.problem.offset + b.objective.eval z

/-- The assignment satisfies the extra rows of a node. -/
def Covers (extra : List Row) (z : Assignment) : Prop := ∀ row ∈ extra, row.HoldsInclusive z

/-- Rows over standardized columns that hold each name once. -/
def OverColumns (b : Search) (extra : List Row) : Prop :=
  ∀ row ∈ extra, row.names.Nodup ∧ ∀ name ∈ row.names, name ∈ b.columns

end Admissible

/-! ## Prepared searches -/

section Prepared

/-- What a search keeps of a problem that holds each name once. -/
structure Prepared (b : Search) : Prop where
  objective_eq : b.objective = b.problem.objective.split b.form.split
  objective_nodup : b.problem.objective.names.Nodup
  rows_nodup : ∀ row ∈ b.form.rows, row.names.Nodup
  not_split : ∀ name ∈ b.binary, name ∉ b.form.split

theorem prepared_of_prepare (hp : problem.Keyed) (h : prepare problem options = .ok b) :
    b.Prepared ∧ b.problem = problem ∧ b.options = options := by
  unfold prepare at h
  split at h
  · cases h
  · cases hform : problem.standardForm true with
    | error fault =>
      rw [hform] at h
      cases h
    | ok form =>
      rw [hform] at h
      obtain rfl := Except.ok.inj h
      obtain ⟨hrows, hsplit⟩ := standardForm_spec hp hform
      refine ⟨⟨rfl, hp.objective, hrows, fun name hname => hsplit name ?_⟩, rfl, rfl⟩
      exact mem_firstOccurrences.mp hname

theorem Prepared.nodup_objective (h : b.Prepared) : b.objective.names.Nodup :=
  h.objective_eq ▸ Terms.nodup_split _ _

end Prepared

/-! ## The equations of a relaxation -/

section Start

/-- The pieces that a relaxation starts from. -/
theorem start_ok {setting : Simplex.Setting} {state : Simplex.State}
    (h : b.start extra = .ok (setting, state)) :
    ∃ e, b.equations extra = .ok e ∧ Simplex.State.ofEquations setting e = .ok state ∧
      setting.goal = b.problem.goal ∧ setting.objective = b.objective ∧ setting.offset = b.problem.offset ∧
      setting.tieBreak = b.options.tieBreak := by
  obtain ⟨e, he, hrest⟩ := ok_of_bind h
  obtain ⟨made, hmade, hlast⟩ := ok_of_bind hrest
  obtain ⟨limit, -, hlimit⟩ := ok_of_bind hmade
  obtain ⟨s, hs, hpair⟩ := ok_of_bind hlast
  obtain ⟨rfl, rfl⟩ := Prod.mk.inj (Except.ok.inj hpair)
  obtain rfl := Except.ok.inj hlimit
  exact ⟨e, he, hs, rfl, rfl, rfl, rfl⟩

/-- The faults of rows that have no equations and of states that cannot be built are not refusals. -/
theorem kind_of_ofRows {objective condition split : List String} {rows : List Row} {internalFrom : Option Int}
    (h : Equations.ofRows objective rows condition split internalFrom = .error f) : f.kind = .value := by
  unfold Equations.ofRows at h
  dsimp only at h
  split at h
  · obtain rfl := Except.error.inj h
    rfl
  · cases h

theorem kind_of_readLimit {limit : Int} (h : Simplex.Setting.readLimit limit = .error f) : f.kind = .value := by
  unfold Simplex.Setting.readLimit at h
  split at h
  · obtain rfl := Except.error.inj h
    rfl
  · cases h

theorem kind_of_ofEquations {setting : Simplex.Setting} {e : Equations}
    (h : Simplex.State.ofEquations setting e = .error f) : f.kind = .value ∨ f.kind = .corrupted := by
  rcases error_of_bind h with hnames | ⟨-, -, hchecked⟩
  · unfold Simplex.State.checkNames at hnames
    dsimp only at hnames
    split at hnames
    · cases hnames
    · obtain rfl := Except.error.inj hnames
      exact Or.inl rfl
  · rcases error_of_bind hchecked with hbasis | ⟨-, -, hpure⟩
    · unfold Simplex.State.checkBasis at hbasis
      split at hbasis
      · obtain rfl := Except.error.inj hbasis
        exact Or.inr rfl
      · cases hbasis
    · cases hpure

/-- A relaxation that does not start is not refused. -/
theorem start_error (h : b.start extra = .error f) (reason : Reason) : f.kind ≠ .refused reason := by
  rcases error_of_bind h with he | ⟨e, -, hrest⟩
  · rw [kind_of_ofRows he]
    exact FaultKind.noConfusion
  · rcases error_of_bind hrest with hsetting | ⟨setting, -, hlast⟩
    · rcases error_of_bind hsetting with hlimit | ⟨limit, -, hpure⟩
      · rw [kind_of_readLimit hlimit]
        exact FaultKind.noConfusion
      · cases hpure
    · rcases error_of_bind hlast with hs | ⟨s, -, hpure⟩
      · rcases kind_of_ofEquations hs with hkind | hkind
        · rw [hkind]
          exact FaultKind.noConfusion
        · rw [hkind]
          exact FaultKind.noConfusion
      · cases hpure

/-- An admissible assignment that the extra rows leave is a feasible point with its value. -/
theorem Admissible.exists_feasible {e : Equations} (hz : b.Admissible z) (h : b.Prepared)
    (hextra : b.OverColumns extra) (hcov : Covers extra z) (he : b.equations extra = .ok e) :
    ∃ x, e.Feasible x ∧ e.value b.objective x = b.objective.eval z := by
  have hbin : ∀ row ∈ b.binaryRows,
      row.names.Nodup ∧ row.HoldsInclusive z ∧ ∀ name ∈ row.names, 0 ≤ z name := by
    intro row hrow
    unfold binaryRows at hrow
    split at hrow
    · obtain ⟨name, hname, rfl⟩ := List.mem_map.mp hrow
      have hval := hz.binary name hname
      refine ⟨Row.nodup_names_of (Terms.nodup_single name 1) _ _ _,
        (Row.holdsInclusive_of _ _ _ _ z).mpr ?_, ?_⟩
      · show 1 * z name + 0 ≤ 1
        rcases hval with h0 | h1
        · rw [h0]
          norm_num
        · rw [h1]
          norm_num
      · intro other hother
        have heq := List.mem_singleton.mp ((Terms.names_nonzero_sublist _).subset hother)
        rw [heq]
        rcases hval with h0 | h1
        · exact h0.ge
        · rw [h1]
          exact zero_le_one
    · exact absurd hrow List.not_mem_nil
  have hall : ∀ row ∈ b.form.rows ++ b.binaryRows ++ extra,
      row.names.Nodup ∧ row.HoldsInclusive z ∧ ∀ name ∈ row.names, 0 ≤ z name := by
    intro row hrow
    rcases List.mem_append.mp hrow with hrow | hrow
    · rcases List.mem_append.mp hrow with hrow | hrow
      · refine ⟨h.rows_nodup row hrow, hz.holds row hrow, fun name hname => hz.nonneg name ?_⟩
        exact List.mem_append_left _ (List.mem_append_right _ (List.mem_flatMap.mpr ⟨row, hrow, hname⟩))
      · exact hbin row hrow
    · obtain ⟨hnd, hcol⟩ := hextra row hrow
      exact ⟨hnd, hcov row hrow, fun name hname => hz.nonneg name (hcol name hname)⟩
  refine Equations.exists_feasible he h.nodup_objective (fun row hrow => (hall row hrow).1)
    (fun row hrow => (hall row hrow).2.1) ?_
  intro name hname
  rcases hname with hobj | ⟨row, hrow, hmem⟩
  · exact hz.nonneg name (List.mem_append_left _ (List.mem_append_left _ hobj))
  · exact (hall row hrow).2.2 name hmem

end Start

/-! ## Outcomes -/

section Outcomes

/-- A solution bounds what the extra rows leave. -/
def Bounds (b : Search) (extra : List Row) (objective : Rat) : Prop :=
  ∀ z, b.Admissible z → Covers extra z → ¬b.problem.goal.Better (b.value z) objective

/-- The outcomes of a relaxation: a solution that bounds what the extra rows leave, nothing that they leave, or
another failure. -/
inductive Relaxes (b : Search) (extra : List Row) : Except Fault Solution → Prop
  | bound {found : Solution} : b.Bounds extra found.objective → Relaxes b extra (.ok found)
  | infeasible {f : Fault} : f.kind = .refused .infeasible → (∀ z, b.Admissible z → ¬Covers extra z) →
      Relaxes b extra (.error f)
  | failed {f : Fault} : f.kind ≠ .refused .infeasible → f.kind ≠ .refused .noIntegerSolution →
      Relaxes b extra (.error f)

/-- A relaxation that starts comes to a verdict, whatever candidates were offered before. -/
theorem relaxed_verdict {setting : Simplex.Setting} {state : Simplex.State} (hfair : b.options.tieBreak.Fair)
    (hstart : b.start extra = .ok (setting, state)) (offered : List (List Nat)) :
    ∃ e t, b.equations extra = .ok e ∧ setting.goal = b.problem.goal ∧ setting.objective = b.objective ∧
      setting.offset = b.problem.offset ∧ Simplex.Verdict e t setting (b.relaxed extra offered).1 := by
  obtain ⟨e, he, hs, hgoal, hobjective, hoffset, htie⟩ := start_ok hstart
  have hrows := he
  rw [equations, ← hobjective] at hrows
  obtain ⟨r, t, hrun, hverdict⟩ := Simplex.exists_verdict (htie ▸ hfair) hrows hs offered
  refine ⟨e, t, he, hgoal, hobjective, hoffset, ?_⟩
  rw [relaxed, hstart]
  dsimp only
  rwa [hrun]

theorem relaxed_of_start_error (h : b.start extra = .error f) (offered : List (List Nat)) :
    (b.relaxed extra offered).1 = .error f := by
  rw [relaxed, h]

/-- The outcomes do not depend on the candidates that were offered before. -/
theorem relaxes_relaxed (h : b.Prepared) (hfair : b.options.tieBreak.Fair) (hextra : b.OverColumns extra)
    (offered : List (List Nat)) : b.Relaxes extra (b.relaxed extra offered).1 := by
  cases hstart : b.start extra with
  | error fault =>
    rw [relaxed_of_start_error hstart]
    exact .failed (start_error hstart _) (start_error hstart _)
  | ok made =>
    obtain ⟨e, t, he, hgoal, hobjective, hoffset, hverdict⟩ := relaxed_verdict hfair hstart offered
    generalize (b.relaxed extra offered).1 = r at hverdict
    cases hverdict with
    | optimal hfeas hobj hbest =>
      rw [hgoal, hobjective] at hbest
      rw [hobjective, hoffset] at hobj
      apply Relaxes.bound
      intro z hz hcov
      obtain ⟨x, hx, hval⟩ := hz.exists_feasible h hextra hcov he
      rw [hobj, value, ← hval, Goal.better_add_left_iff]
      exact hbest x hx
    | unbounded => exact .failed FaultKind.noConfusion FaultKind.noConfusion
    | infeasible hno =>
      apply Relaxes.infeasible rfl
      intro z hz hcov
      obtain ⟨x, hx, -⟩ := hz.exists_feasible h hextra hcov he
      exact hno x hx
    | limit =>
      refine .failed ?_ ?_
      · intro hkind
        cases hkind
      · intro hkind
        cases hkind

theorem relax_run (h : b.Prepared) (hfair : b.options.tieBreak.Fair) (hextra : b.OverColumns extra)
    (s : SearchState) : ∃ r t, (b.relax extra).run s = (r, t) ∧ b.Relaxes extra r :=
  ⟨_, _, rfl, relaxes_relaxed h hfair hextra s.offered⟩

end Outcomes

end Search

end ExactLP
