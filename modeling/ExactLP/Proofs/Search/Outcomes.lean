import ExactLP.Proofs.Equations.Growth
import ExactLP.Proofs.Search.Names

/-!
# Proofs.Search.Outcomes — how a search can end once its root is solved

The equations of a node are those of the root and its branch rows, whose labels count on.  Where the columns of the
root leave room for them, every node has equations, and what its relaxation allows the root's allows too: a node is
solved, infeasible or cut off by the limit of pivots.  So a search ends with a solution, without an integer solution,
or at that limit.

* `LeavesRoom`: the names that the root must not use.
* `Fits`: the branch rows of an open node; `Fits.addable`: they may be added to the rows of the root.
* `Rooted.relaxed_cases`: the outcomes of a node; `Rooted.selectBranch_fits`: its children fit.
* `Rooted.explore_limited`, `solve_outcomes`: the outcomes of a search.
-/

namespace ExactLP.Search

open Equations (auxiliaryNames unknownsOf)

variable {b : Search} {problem : Problem} {options : SearchOptions} {e : Equations} {rows extra : List Row}
  {start count : Nat} {found : Solution} {offered : List (List Nat)} {setting : Simplex.Setting}
  {state : Simplex.State} {node : Node} {nodes : List Node} {incumbent : Option Solution} {root : Rat} {name : String}

/-! ## Labels of branch rows -/

section Labels

theorem branchLabel_inj {j k : Nat} (h : branchLabel j = branchLabel k) : j = k :=
  toString_nat_injective ((String.append_right_inj "branch").mp h)

/-- The names of the auxiliaries of a branch row end in a digit. -/
theorem getLast?_of_mem_auxiliaryNames {k : Nat} (h : name ∈ auxiliaryNames (branchLabel k)) :
    ∃ d, name.toList.getLast? = some d ∧ d.isDigit = true := by
  obtain ⟨stem, -, rfl⟩ := List.mem_map.mp h
  have hdigits : (toString k).toList = Nat.toDigits 10 k := by
    rw [Nat.toString_eq_ofList_toDigits, String.toList_ofList]
  have hne : Nat.toDigits 10 k ≠ [] := Nat.toDigits_ne_nil
  refine ⟨(Nat.toDigits 10 k).getLast hne, ?_,
    Nat.isDigit_of_mem_toDigits (by norm_num) (by norm_num) (List.getLast_mem hne)⟩
  show (stem ++ ("branch" ++ toString k)).toList.getLast? = _
  rw [String.toList_append, String.toList_append, hdigits, ← List.append_assoc,
    List.getLast?_append_of_ne_nil _ hne, List.getLast?_eq_some_getLast hne]

/-- No part has the name of an auxiliary of a branch row. -/
theorem part_not_mem_auxiliaryNames (x : String) (k : Nat) :
    positivePart x ∉ auxiliaryNames (branchLabel k) ∧ negativePart x ∉ auxiliaryNames (branchLabel k) := by
  have hlast : ∀ c : Char, (x ++ String.singleton c).toList.getLast? = some c := by
    intro c
    rw [String.toList_append, String.toList_singleton, List.getLast?_concat]
  constructor
  · intro hmem
    obtain ⟨d, hd, hdigit⟩ := getLast?_of_mem_auxiliaryNames hmem
    rw [← Option.some.inj ((hlast '+').symm.trans hd)] at hdigit
    exact absurd hdigit (by decide)
  · intro hmem
    obtain ⟨d, hd, hdigit⟩ := getLast?_of_mem_auxiliaryNames hmem
    rw [← Option.some.inj ((hlast '-').symm.trans hd)] at hdigit
    exact absurd hdigit (by decide)

end Labels

/-! ## Branch rows that fit -/

section Fits

/-- The equations of the root leave room for branch rows with numbers above `start`: no column has a name that their
auxiliaries may have, and no auxiliary that of a part of an integer variable. -/
structure LeavesRoom (b : Search) (e : Equations) (start : Nat) : Prop where
  branch : ∀ k, start < k → ∀ name ∈ auxiliaryNames (branchLabel k), name ∉ e.columns.map Column.name
  part : ∀ x ∈ b.integer, x ∈ b.form.split → ∀ c ∈ e.columns, c.role.isVariable = false →
    c.name ≠ positivePart x ∧ c.name ≠ negativePart x

/-- The unknowns of the root and the parts of integer variables. -/
def Branchable (b : Search) (name : String) : Prop :=
  name ∈ unknownsOf b.objective.names (b.form.rows ++ b.binaryRows) ∨
    ∃ x ∈ b.integer, x ∈ b.form.split ∧ (name = positivePart x ∨ name = negativePart x)

/-- Branch rows with numbers above `start` and up to `count`, no number twice. -/
structure Fits (b : Search) (start count : Nat) (rows : List Row) : Prop where
  labels_nodup : (rows.map Row.label).Nodup
  labelled : ∀ row ∈ rows, ∃ k, row.label = some (branchLabel k) ∧ start < k ∧ k ≤ count
  names_nodup : ∀ row ∈ rows, row.names.Nodup
  names : ∀ row ∈ rows, ∀ name ∈ row.names, b.Branchable name

theorem Fits.nil (b : Search) (start count : Nat) : b.Fits start count [] :=
  ⟨List.nodup_nil, List.forall_mem_nil _, List.forall_mem_nil _, List.forall_mem_nil _⟩

theorem Fits.mono {count' : Nat} (h : b.Fits start count rows) (hle : count ≤ count') :
    b.Fits start count' rows := by
  refine ⟨h.labels_nodup, fun row hrow => ?_, h.names_nodup, h.names⟩
  obtain ⟨k, hlabel, hlt, hk⟩ := h.labelled row hrow
  exact ⟨k, hlabel, hlt, hk.trans hle⟩

/-- A branch row with a later number fits too. -/
theorem Fits.concat {k : Nat} (h : b.Fits start count rows) (hstart : start ≤ count) (hk : count < k)
    (hnames : ∀ other ∈ (b.single name).names, b.Branchable other) (cmp : Comparator) (rhs : Rat) :
    b.Fits start k (rows ++ [Row.of (b.single name) cmp rhs (some (branchLabel k))]) := by
  set added := Row.of (b.single name) cmp rhs (some (branchLabel k)) with hadded
  have hlabel : added.label = some (branchLabel k) := rfl
  have hnew : some (branchLabel k) ∉ rows.map Row.label := by
    intro hmem
    obtain ⟨row, hrow, heq⟩ := List.mem_map.mp hmem
    obtain ⟨j, hj, -, hle⟩ := h.labelled row hrow
    rw [branchLabel_inj (Option.some.inj (hj.symm.trans heq))] at hle
    exact absurd hk (not_lt.mpr hle)
  refine ⟨?_, ?_, ?_, ?_⟩
  · rw [List.map_append, List.map_singleton, hlabel, ← List.concat_eq_append]
    exact h.labels_nodup.concat hnew
  · exact List.forall_mem_append.mpr ⟨(h.mono hk.le).labelled,
      List.forall_mem_singleton.mpr ⟨k, hlabel, hstart.trans_lt hk, le_rfl⟩⟩
  · exact List.forall_mem_append.mpr ⟨h.names_nodup,
      List.forall_mem_singleton.mpr (Row.nodup_names_of (Terms.nodup_split _ _) _ _ _)⟩
  · exact List.forall_mem_append.mpr ⟨h.names, List.forall_mem_singleton.mpr fun other hother =>
      hnames other ((Terms.names_nonzero_sublist _).subset hother)⟩

/-- The relaxation of the root has the rows of the problem. -/
theorem equations_nil (b : Search) : b.equations [] = Equations.ofRows b.objective.names
    (b.form.rows ++ b.binaryRows) b.form.condition b.form.split (some b.form.rows.length) := by
  rw [equations, List.append_nil]

/-- Branch rows that fit may be added to the rows of the root. -/
theorem Fits.addable (h : b.Fits start count rows) (he : b.equations [] = .ok e) (hroom : b.LeavesRoom e start) :
    e.Addable rows := by
  rw [equations_nil] at he
  obtain ⟨hlaid, -⟩ := Equations.laidOut_of_ofRows he
  refine ⟨h.labels_nodup, fun row hrow => ?_, fun row hrow name hname => ⟨?_, ?_⟩⟩
  · obtain ⟨k, hlabel, hlt, -⟩ := h.labelled row hrow
    exact ⟨_, hlabel, hroom.branch k hlt⟩
  · intro c hc haux heq
    rcases h.names row hrow name hname with hunknown | ⟨x, hx, hsplit, hpart⟩
    · exact hlaid.name_not_mem_unknowns hc haux (heq ▸ hunknown)
    · obtain ⟨hpos, hneg⟩ := hroom.part x hx hsplit c hc haux
      exact hpart.elim (fun hp => hpos (heq.trans hp)) fun hp => hneg (heq.trans hp)
  · intro other hother label hlabel hmem
    obtain ⟨k, hlabel', hlt, -⟩ := h.labelled other hother
    obtain rfl := Option.some.inj (hlabel'.symm.trans hlabel)
    rcases h.names row hrow name hname with hunknown | ⟨x, -, -, hpart⟩
    · obtain ⟨v, hv, rfl, -⟩ := hlaid.exists_variable hunknown
      exact hroom.branch k hlt v.name hmem (List.mem_map_of_mem hv)
    · obtain ⟨hpos, hneg⟩ := part_not_mem_auxiliaryNames x k
      exact hpart.elim (fun hp => hpos (hp ▸ hmem)) fun hp => hneg (hp ▸ hmem)

end Fits

/-! ## The relaxation of a node -/

section Nodes

/-- A search whose root was solved, on equations that leave room for branch rows with numbers above `start`. -/
structure Rooted (b : Search) (e : Equations) (start : Nat) : Prop where
  prepared : b.Prepared
  fair : b.options.tieBreak.Fair
  equations_eq : b.equations [] = .ok e
  room : b.LeavesRoom e start
  solved : ∃ offered root, (b.relaxed [] offered).1 = .ok root

theorem setting_of_start (h : b.start extra = .ok (setting, state)) : b.setting = .ok setting := by
  obtain ⟨e, -, hrest⟩ := ok_of_bind h
  obtain ⟨made, hmade, hlast⟩ := ok_of_bind hrest
  obtain ⟨s, -, hpair⟩ := ok_of_bind hlast
  rwa [(Prod.mk.inj (Except.ok.inj hpair)).1] at hmade

/-- A relaxation that has equations starts when another one did. -/
theorem start_of_equations (h : b.start extra = .ok (setting, state)) (he : b.equations rows = .ok e) :
    b.start rows = .ok (setting, Simplex.State.initial setting e) := by
  obtain ⟨-, -, -, -, hobjective, -⟩ := start_ok h
  have hlaid := (Equations.laidOut_of_ofRows he).1
  have hstate : Simplex.State.ofEquations setting e = .ok (Simplex.State.initial setting e) :=
    Simplex.State.ofEquations_ok hlaid fun name hname =>
      hlaid.mem_unknowns_of_objective (hobjective ▸ hname)
  unfold Search.start
  rw [he, setting_of_start h]
  show (Simplex.State.ofEquations setting e >>= fun s => pure (setting, s)) = _
  rw [hstate]
  rfl

theorem Rooted.exists_start (h : b.Rooted e start) : ∃ setting state, b.start [] = .ok (setting, state) := by
  obtain ⟨offered, root, hroot⟩ := h.solved
  cases hstart : b.start [] with
  | error fault =>
    rw [relaxed_of_start_error hstart] at hroot
    cases hroot
  | ok made => exact ⟨made.1, made.2, rfl⟩

/-- The values of the points that the root allows are bounded. -/
theorem Rooted.bounded (h : b.Rooted e start) :
    ∃ bound, ∀ y, e.Feasible y → ¬b.problem.goal.Better (e.value b.objective y) bound := by
  obtain ⟨setting, state, hstart⟩ := h.exists_start
  obtain ⟨offered, root, hroot⟩ := h.solved
  obtain ⟨e', t, he', hgoal, hobjective, -, hverdict⟩ := relaxed_verdict h.fair hstart offered
  obtain rfl := Except.ok.inj (he'.symm.trans h.equations_eq)
  rw [hroot] at hverdict
  cases hverdict with
  | optimal _ _ hbest => exact ⟨_, hgoal ▸ hobjective ▸ hbest⟩

theorem Rooted.rows_nodup (h : b.Rooted e start) (hfits : b.Fits start count rows) :
    ∀ row ∈ b.form.rows ++ b.binaryRows ++ rows, row.names.Nodup := by
  refine List.forall_mem_append.mpr ⟨List.forall_mem_append.mpr ⟨h.prepared.rows_nodup, ?_⟩, hfits.names_nodup⟩
  unfold binaryRows
  split
  · exact List.forall_mem_map.mpr fun name _ => Row.nodup_names_of (Terms.nodup_single name 1) _ _ _
  · exact List.forall_mem_nil _

/-- A node is solved, infeasible, or cut off by the limit of pivots. -/
theorem Rooted.relaxed_cases (h : b.Rooted e start) (hfits : b.Fits start count rows) (offered : List (List Nat)) :
    (∃ found, (b.relaxed rows offered).1 = .ok found) ∨ ∃ f, (b.relaxed rows offered).1 = .error f ∧
      (f.kind = .refused .infeasible ∨ f.kind = .refused .iterationLimit) := by
  obtain ⟨setting, state, hstart⟩ := h.exists_start
  obtain ⟨bound, hbound⟩ := h.bounded
  have hroot := h.equations_eq
  rw [equations_nil] at hroot
  obtain ⟨e', he'⟩ := Equations.exists_ofRows_append hroot (hfits.addable h.equations_eq h.room)
  obtain ⟨e'', t, he'', hgoal, hobjective, -, hverdict⟩ :=
    relaxed_verdict h.fair (start_of_equations hstart he') offered
  obtain rfl := Except.ok.inj (he''.symm.trans he')
  generalize (b.relaxed rows offered).1 = r at hverdict
  cases hverdict with
  | optimal => exact Or.inl ⟨_, rfl⟩
  | unbounded hunbounded =>
    -- a point beyond the bound of the root would be one that the root allows
    obtain ⟨y, hy, hbetter⟩ := hunbounded bound
    obtain ⟨y', hy', hvalue⟩ := Equations.exists_feasible_of_append hroot he' h.prepared.nodup_objective
      (h.rows_nodup hfits) hy
    rw [hgoal, hobjective, ← hvalue] at hbetter
    exact absurd hbetter (hbound y' hy')
  | infeasible => exact Or.inr ⟨_, rfl, Or.inl rfl⟩
  | limit => exact Or.inr ⟨_, rfl, Or.inr rfl⟩

end Nodes

/-! ## The branches of a node -/

section Branches

theorem mem_names_single {other : String} :
    other ∈ (b.single name).names ↔ other ∈ Terms.partsOf b.form.split name := by
  rw [single, Terms.split_eq_foldl, List.foldl_cons, List.foldl_nil, Terms.mem_names_splitStep]
  exact or_iff_right List.not_mem_nil

/-- A value that is not zero stands in a column, so the branch rows of a fractional variable have the names of
branches. -/
theorem Rooted.branchable_of_fractional? (h : b.Rooted e start) (hfits : b.Fits start count rows)
    (hsolved : (b.relaxed rows offered).1 = .ok found) (hfrac : b.fractional? found = some name) :
    ∀ other ∈ (b.single name).names, b.Branchable other := by
  intro other hother
  rw [mem_names_single, Terms.partsOf] at hother
  by_cases hsplit : name ∈ b.form.split
  · have hinteger := (mem_of_fractional? hfrac).resolve_left fun hbin => h.prepared.not_split name hbin hsplit
    rw [if_pos hsplit] at hother
    exact Or.inr ⟨name, hinteger, hsplit, by simpa using hother⟩
  · rw [if_neg hsplit] at hother
    obtain rfl := List.mem_singleton.mp hother
    obtain ⟨e', x, cost, he', -, hreads⟩ := exists_of_relaxed h.fair hsolved
    obtain ⟨c, hc, hkey⟩ :=
      Equations.exists_own_of_value_ne_zero he' hreads hsplit (value_ne_zero_of_fractional? hfrac)
    have hunknown := (Equations.laidOut_of_ofRows he').1.name_mem_unknowns hc (Equations.isVariable_of_own hkey)
    rw [Equations.own_spec hkey] at hunknown
    rcases Equations.mem_unknownsOf_append.mp hunknown with hroot | ⟨row, hrow, hmem⟩
    · exact Or.inl hroot
    · exact hfits.names row hrow other (Row.mem_names_of_normalized hmem)

/-- The branch rows of a variable have the next two numbers. -/
theorem branchRows_numbered (name : String) (value : Rat) (s : SearchState) :
    ∃ cmp rhs cmp' rhs', (b.branchRows name value).run s =
      (.ok (Row.of (b.single name) cmp rhs (some (branchLabel (s.branchRows + 1))),
        Row.of (b.single name) cmp' rhs' (some (branchLabel (s.branchRows + 2)))),
      { s with branchRows := s.branchRows + 2 }) := by
  by_cases hbin : name ∈ b.binary
  · exact ⟨_, _, _, _, branchRows_of_binary hbin value s⟩
  · exact ⟨_, _, _, _, branchRows_of_integer hbin value s⟩

/-- The children of a node that was solved fit. -/
theorem Rooted.selectBranch_fits (h : b.Rooted e start) {s : SearchState} (hstart : start ≤ s.branchRows)
    (hfits : b.Fits start s.branchRows node.rows) (hsolved : (b.relaxed node.rows offered).1 = .ok found) :
    ∃ chosen t, (b.selectBranch found).run s = (.ok chosen, t) ∧ s.branchRows ≤ t.branchRows ∧
      ∀ branches, chosen = some branches → ∀ child ∈ node.branch branches, b.Fits start t.branchRows child.rows := by
  unfold selectBranch
  cases hfrac : b.fractional? found with
  | none => exact ⟨none, s, rfl, le_rfl, fun _ heq => by cases heq⟩
  | some name =>
    have hnames := h.branchable_of_fractional? hfits hsolved hfrac
    obtain ⟨cmp, rhs, cmp', rhs', hrun⟩ := branchRows_numbered (b := b) name (found.value name) s
    refine ⟨_, _, (run_bind_of_ok hrun).trans rfl, Nat.le_add_right _ 2, ?_⟩
    intro branches heq
    obtain rfl := Option.some.inj heq
    refine List.forall_mem_cons.mpr ⟨?_, List.forall_mem_singleton.mpr ?_⟩
    · exact hfits.concat hstart (Nat.lt_add_of_pos_right two_pos) hnames _ _
    · exact (hfits.concat hstart (Nat.lt_succ_self _) hnames _ _).mono (Nat.le_succ _)

end Branches

/-! ## Runs -/

section Runs

/-- The only failure is the limit of pivots. -/
def Limited {α : Type} (r : Except Fault α) : Prop := ∀ f, r = .error f → f.kind = .refused .iterationLimit

theorem limited_ok {α : Type} (a : α) : Limited (.ok a) := fun _ h => by cases h

/-- An exploration of open nodes that fit fails only at the limit of pivots. -/
theorem Rooted.explore_limited (h : b.Rooted e start) (budget : Nat) {s : SearchState}
    (hstart : start ≤ s.branchRows) (hnodes : ∀ node ∈ nodes, b.Fits start s.branchRows node.rows) :
    Limited ((b.explore root budget nodes incumbent).run s).1 := by
  induction budget generalizing nodes incumbent s with
  | zero =>
    cases nodes with
    | nil => exact limited_ok _
    | cons node rest => exact limited_ok _
  | succ budget ih =>
    cases nodes with
    | nil => exact limited_ok _
    | cons node rest =>
      rw [explore, run_bind_of_ok (run_modify s _)]
      set s' := { s with visited := s.visited + 1 }
      obtain ⟨t, hrelax, hcount⟩ := relax_run_eq (b := b) node.rows s'
      have hcount : t.branchRows = s.branchRows := hcount
      rw [← hcount] at hstart hnodes
      obtain ⟨hnode, hrest⟩ := List.forall_mem_cons.mp hnodes
      rw [run_bind_of_ok (attempt_run _ s'), hrelax]
      rcases h.relaxed_cases hnode s'.offered with ⟨found, hr⟩ | ⟨f, hr, hkind⟩
      · rw [hr]
        dsimp only
        split
        · exact ih hstart hrest
        · obtain ⟨chosen, u, hselect, hle, hchildren⟩ := h.selectBranch_fits hstart hnode hr
          have hrest' : ∀ node ∈ rest, b.Fits start u.branchRows node.rows :=
            fun node hmem => (hrest node hmem).mono hle
          rw [run_bind_of_ok hselect]
          cases chosen with
          | some branches =>
            exact ih (hstart.trans hle) (List.forall_mem_append.mpr ⟨hchildren branches rfl, hrest'⟩)
          | none =>
            dsimp only
            split
            · exact limited_ok _
            · exact ih (hstart.trans hle) hrest'
      · rw [hr]
        dsimp only
        split
        · exact ih hstart hrest
        · rename_i hfeasible
          intro f' hf
          obtain rfl := Except.error.inj hf
          exact hkind.resolve_left hfeasible

/-- A search whose root is solved fails only at the limit of pivots. -/
theorem Rooted.run_limited {s : SearchState} (h : b.Rooted e s.branchRows) {root : Solution}
    (hroot : (b.relaxed [] s.offered).1 = .ok root) : Limited (b.run.run s).1 := by
  obtain ⟨t, hrelax, hcount⟩ := relax_run_eq (b := b) [] s
  rw [hroot] at hrelax
  unfold run
  rw [run_bind_of_ok hrelax]
  cases hneeds : b.needsIntegrality with
  | false => exact limited_ok _
  | true =>
    have hfits : b.Fits s.branchRows t.branchRows (Node.rows ⟨0, []⟩) := .nil b _ _
    obtain ⟨chosen, u, hselect, hle, hchildren⟩ := h.selectBranch_fits hcount.ge hfits hroot
    rw [if_pos rfl, run_bind_of_ok hselect]
    cases chosen with
    | none => exact limited_ok _
    | some branches =>
      dsimp only
      rw [run_bind_of_ok (run_get u)]
      exact h.explore_limited _ (hcount.ge.trans hle) (hchildren branches rfl)

end Runs

/-! ## Results -/

section Results

/-- The objective value at the root of a search on a problem, and that of the search, or their faults. -/
def rooted? (problem : Problem) (options : SearchOptions) : Option (Except Fault Rat × Except Fault Rat) :=
  match prepare problem options with
  | .ok b => some ((b.relaxed [] []).1.map Solution.objective, (b.solve.run {}).1.map Solution.objective)
  | .error _ => none

theorem exists_of_rooted? {q : Rat} {r : Except Fault Rat} (h : rooted? problem options = some (.ok q, r)) :
    ∃ b root r' t, prepare problem options = .ok b ∧ (b.relaxed [] []).1 = .ok root ∧
      b.solve.run {} = (r', t) ∧ r'.map Solution.objective = r := by
  unfold rooted? at h
  split at h
  · rename_i b hb
    obtain ⟨hroot, hr⟩ := Prod.mk.inj (Option.some.inj h)
    cases hrelaxed : (b.relaxed [] []).1 with
    | error f =>
      rw [hrelaxed] at hroot
      cases hroot
    | ok root => exact ⟨b, root, _, _, hb, hrelaxed, rfl, hr⟩
  · cases h

/-- The columns leave room when none is named like the auxiliaries of branch rows or, being an auxiliary itself, like
the part of an integer variable. -/
theorem leavesRoom_of_columns {columns : List (String × Role)} (hprepare : prepare problem options = .ok b)
    (hcolumns : (e.columns.map fun c => (c.name, c.role)) = columns)
    (hbranch : ∀ p ∈ columns, ¬"branch".toList <+: p.1.toList.drop 2)
    (hpart : ∀ x ∈ problem.integer, ∀ p ∈ columns, p.2.isVariable = false →
      p.1 ≠ positivePart x ∧ p.1 ≠ negativePart x) (start : Nat) : b.LeavesRoom e start := by
  obtain ⟨-, -, hinteger⟩ := prepare_ok hprepare
  have hmem : ∀ c ∈ e.columns, (c.name, c.role) ∈ columns := fun c hc => hcolumns ▸ List.mem_map_of_mem hc
  constructor
  · intro k _ name hname hcolumn
    obtain ⟨c, hc, rfl⟩ := List.mem_map.mp hcolumn
    refine hbranch _ (hmem c hc) ?_
    rw [Equations.drop_of_mem_auxiliaryNames hname]
    exact ⟨(toString k).toList, String.toList_append.symm⟩
  · intro x hx _ c hc haux
    rw [hinteger] at hx
    exact hpart x (mem_firstOccurrences.mp (List.mem_filter.mp hx).1) _ (hmem c hc) haux

/-- Once the root is solved on equations that leave room for the branch rows, a search returns a solution, finds no
integer solution, or reaches the limit of pivots at a node. -/
theorem solve_outcomes (hp : problem.Keyed) (hprepare : prepare problem options = .ok b)
    (hfair : options.tieBreak.Fair) (he : b.equations [] = .ok e) {s t : SearchState}
    (hroom : b.LeavesRoom e s.branchRows) {root : Solution} (hroot : (b.relaxed [] s.offered).1 = .ok root)
    {r : Except Fault Solution} (hsolve : b.solve.run s = (r, t)) :
    (∃ sol, r = .ok sol) ∨
      ∃ f, r = .error f ∧ (f.kind = .refused .noIntegerSolution ∨ f.kind = .refused .iterationLimit) := by
  obtain ⟨hprepared, -, rfl⟩ := prepared_of_prepare hp hprepare
  have hrooted : b.Rooted e s.branchRows := ⟨hprepared, hfair, he, hroom, s.offered, root, hroot⟩
  have hlimited := hrooted.run_limited hroot
  cases r with
  | ok sol => exact Or.inl ⟨sol, rfl⟩
  | error f =>
    refine Or.inr ⟨f, rfl, ?_⟩
    rcases error_of_run_bind hsolve with hrun | ⟨exploration, u, -, hrest⟩
    · exact Or.inr (hlimited f (by rw [hrun]))
    · cases hincumbent : exploration.incumbent with
      | some best =>
        rw [hincumbent] at hrest
        cases (Prod.mk.inj hrest).1
      | none =>
        rw [hincumbent] at hrest
        obtain rfl := Except.error.inj (Prod.mk.inj hrest).1
        exact Or.inl rfl

theorem solve_outcomes_sample :
    ∃ b e root r t, prepare sampleProblem { tieBreak := .first } = .ok b ∧ b.equations [] = .ok e ∧
      b.LeavesRoom e 0 ∧ (b.relaxed [] []).1 = .ok root ∧ b.solve.run {} = (r, t) ∧
      r.map Solution.objective = .ok (7 / 2) ∧ ((∃ sol, r = .ok sol) ∨
        ∃ f, r = .error f ∧ (f.kind = .refused .noIntegerSolution ∨ f.kind = .refused .iterationLimit)) := by
  have hrooted : rooted? sampleProblem { tieBreak := .first } = some (.ok (15 / 4), .ok (7 / 2)) := by
    decide +kernel
  have hcolumns : columns? sampleProblem { tieBreak := .first } =
      some [("x+", .positivePart (some "x")), ("x-", .negativePart (some "x")), ("y", .decision),
        ("s_1", .surplus (some "1")), ("s_2", .surplus (some "2"))] := by
    decide +kernel
  obtain ⟨b, root, r, t, hprepare, hroot, hsolve, hr⟩ := exists_of_rooted? hrooted
  obtain ⟨b', e, hprepare', he, hcolumns⟩ := exists_of_columns? hcolumns
  obtain rfl := Except.ok.inj (hprepare'.symm.trans hprepare)
  have hroom := leavesRoom_of_columns hprepare hcolumns (by decide) (by decide) 0
  exact ⟨b', e, root, r, t, hprepare, he, hroom, hroot, hsolve, hr,
    solve_outcomes ⟨by decide, by decide⟩ hprepare Simplex.TieBreak.fair_first he hroom hroot hsolve⟩

/-- Maximize an integer `x` with `2 x <= 3`, a row that is named like the first branch row. -/
def branchNamedProblem : Problem where
  goal := .maximize
  objective := [("x", 1)]
  constraints := [.plain ⟨[("x", 2)], .le, 3, some "branch1"⟩]
  integer := ["x"]

/-- Maximize `s_f+` with `2 s_f+ <= 3` for an integer `s_f` of either sign, whose other part has the name of the
surplus. -/
def partNamedProblem : Problem where
  goal := .maximize
  objective := [("s_f+", 1)]
  constraints := [.plain ⟨[("s_f+", 2)], .le, 3, some "f-"⟩]
  integer := ["s_f"]
  unrestricted := ["s_f"]

/-- The labels of the rows of a problem. -/
def labels (problem : Problem) : List String := problem.constraints.flatMap fun c => c.operands.filterMap Row.label

/-- A search on the problem fails although its root is solved. -/
def FailsBelow (problem : Problem) (options : SearchOptions) (kind : FaultKind) : Prop :=
  ∃ b root f t, prepare problem options = .ok b ∧ (b.relaxed [] []).1 = .ok root ∧
    b.solve.run {} = (.error f, t) ∧ f.kind = kind

theorem failsBelow_of_rooted? {q : Rat} {f : Fault} (h : rooted? problem options = some (.ok q, .error f)) :
    FailsBelow problem options f.kind := by
  obtain ⟨b, root, r, t, hprepare, hroot, hsolve, hr⟩ := exists_of_rooted? h
  cases r with
  | ok sol => cases hr
  | error f' => exact ⟨b, root, f', t, hprepare, hroot, hsolve, congrArg Fault.kind (Except.error.inj hr)⟩

/-- Though no two rows of a problem have one label, a branch row may have the label of a row, and a part that occurs in
branch rows only may have the name of an auxiliary. -/
theorem solve_clashes :
    ((labels branchNamedProblem).Nodup ∧ FailsBelow branchNamedProblem { tieBreak := .first } .value) ∧
      (labels partNamedProblem).Nodup ∧ FailsBelow partNamedProblem { tieBreak := .first } .value := by
  have hbranch : rooted? branchNamedProblem { tieBreak := .first } = some (.ok (3 / 2), .error .duplicateColumns) := by
    decide +kernel
  have hpart : rooted? partNamedProblem { tieBreak := .first } = some (.ok (3 / 2), .error .duplicateColumns) := by
    decide +kernel
  exact ⟨⟨by decide, failsBelow_of_rooted? hbranch⟩, by decide, failsBelow_of_rooted? hpart⟩

end Results

end ExactLP.Search
