import ExactLP.Proofs.Equations.Projection
import ExactLP.Proofs.Simplex.Duality

/-!
# Proofs.Equations.Growth — the equations of more rows

Rows with labels of their own may be added to some rows that have equations: the columns keep names of their own,
so the equations of all rows exist.  They allow no point that those of the first rows do not allow.

* `stems`, `auxiliaryNames`: the names that auxiliaries may have; `disjoint_auxiliaryNames`: a name tells the label.
* `Addable`, `exists_ofRows_append`: rows that may be added, and their equations.
* `LaidOut.value_of_gives`, `exists_feasible_of_append`: a feasible point satisfies the first rows alone.
-/

open Finset

namespace ExactLP.Equations

variable {e e' : Equations} {objective condition split unknowns names : List String} {internalFrom : Option Int}
  {rows extra : List Row} {aux : List (List (Column × Rat))} {label other name : String} {x : ColumnPoint}
  {z : Assignment}

/-! ## Names of auxiliaries -/

section Names

/-- What the names of the auxiliaries of a row begin with. -/
def stems : Comparator → List String
  | .eq => ["p_", "a_"]
  | .lt | .le => ["s_"]
  | .gt | .ge => ["e_", "a_"]

/-- The names that the auxiliaries of a row with this label may have. -/
def auxiliaryNames (label : String) : List String :=
  ["s_", "e_", "p_", "a_"].map (· ++ label)

theorem names_auxiliaries (cmp : Comparator) (label : String) (internal : Bool) :
    (auxiliaries cmp label internal).map (fun p => p.1.name) = (stems cmp).map (· ++ label) := by
  cases cmp <;> rfl

theorem names_sublist (cmp : Comparator) (label : String) :
    ((stems cmp).map (· ++ label)).Sublist (auxiliaryNames label) := by
  refine List.Sublist.map _ ?_
  cases cmp <;> decide

theorem nodup_auxiliaryNames (label : String) : (auxiliaryNames label).Nodup :=
  List.Nodup.map (fun _ _ h => (String.append_left_inj label).mp h) (by decide)

theorem drop_of_mem_auxiliaryNames (h : name ∈ auxiliaryNames label) : name.toList.drop 2 = label.toList := by
  obtain ⟨stem, hstem, rfl⟩ := List.mem_map.mp h
  have hlength : stem.toList.length = 2 :=
    (show ∀ stem ∈ ["s_", "e_", "p_", "a_"], stem.toList.length = 2 by decide) stem hstem
  rw [String.toList_append, List.drop_left' hlength]

/-- The name of an auxiliary tells the label of its row. -/
theorem disjoint_auxiliaryNames (h : label ≠ other) :
    (auxiliaryNames label).Disjoint (auxiliaryNames other) := by
  intro name hname hother
  refine h (String.toList_inj.mp ?_)
  rw [← drop_of_mem_auxiliaryNames hname, drop_of_mem_auxiliaryNames hother]

/-- The names of the auxiliaries of some rows. -/
def generated (rows : List Row) (internalFrom : Option Int) : List String :=
  (allAuxiliaries (rows.map Row.normalized) internalFrom).flatten.map fun p => p.1.name

/-- The names of the columns that are laid out for some rows. -/
theorem names_columns (objective : List String) (rows : List Row) (internalFrom : Option Int)
    (condition split : List String) :
    ((unknownsOf objective rows).map (variableColumn condition split) ++
      (allAuxiliaries (rows.map Row.normalized) internalFrom).flatten.map Prod.fst).map Column.name =
        unknownsOf objective rows ++ generated rows internalFrom := by
  rw [List.map_append, map_name_variableColumn, List.map_map]
  rfl

theorem names_of_ofRows (he : ofRows objective rows condition split internalFrom = .ok e) :
    e.columns.map Column.name = unknownsOf objective rows ++ generated rows internalFrom := by
  rw [(laidOut_of_ofRows he).2, names_columns]

/-- Rows have equations when their columns have names of their own. -/
theorem exists_ofRows (h : (unknownsOf objective rows ++ generated rows internalFrom).Nodup)
    (condition split : List String) : ∃ e, ofRows objective rows condition split internalFrom = .ok e := by
  have hlength := length_firstOccurrences (names_columns objective rows internalFrom condition split ▸ h)
  unfold ofRows
  dsimp only
  exact ⟨_, if_neg (not_not.mpr (hlength.trans (List.length_map _)))⟩

end Names

/-! ## More rows -/

section Append

theorem mem_unknownsOf_append : name ∈ unknownsOf objective (rows ++ extra) ↔
    name ∈ unknownsOf objective rows ∨ ∃ row ∈ extra, name ∈ row.normalized.names := by
  rw [unknownsOf, unknownsOf, mem_firstOccurrences, mem_firstOccurrences, List.map_append, List.flatMap_append,
    ← List.append_assoc, List.mem_append]
  refine or_congr_right ?_
  simp only [List.mem_flatMap, List.mem_map, exists_exists_and_eq_and]

/-- Rows with labels have auxiliaries whose names do not depend on the places of the rows. -/
theorem generated_append (hlabelled : ∀ row ∈ extra, row.label ≠ none) :
    generated (rows ++ extra) internalFrom = generated rows internalFrom ++
      extra.flatMap fun row => (stems row.normalized.cmp).map (· ++ row.label.getD "") := by
  rw [generated, generated, allAuxiliaries, allAuxiliaries, List.map_append, List.mapIdx_append,
    List.flatten_append, List.map_append, List.map_flatten (L := List.mapIdx _ (extra.map _)), List.flatMap]
  refine congrArg (_ ++ ·) (congrArg List.flatten (List.ext_getElem (by simp) ?_))
  intro i hi hi'
  rw [List.length_map] at hi'
  obtain ⟨label, hlabel⟩ := Option.ne_none_iff_exists'.mp (hlabelled extra[i] (List.getElem_mem hi'))
  rw [List.getElem_map, List.getElem_mapIdx, List.getElem_map, List.getElem_map, names_auxiliaries,
    Row.label_normalized, hlabel]
  rfl

/-- Rows that may be added to those of the equations `e`: they have labels of their own, by which no column of `e`
is named, and name no auxiliary. -/
structure Addable (e : Equations) (extra : List Row) : Prop where
  labels_nodup : (extra.map Row.label).Nodup
  labelled : ∀ row ∈ extra, ∃ label, row.label = some label ∧
    ∀ name ∈ auxiliaryNames label, name ∉ e.columns.map Column.name
  names : ∀ row ∈ extra, ∀ name ∈ row.names,
    (∀ c ∈ e.columns, c.role.isVariable = false → c.name ≠ name) ∧
      ∀ other ∈ extra, ∀ label, other.label = some label → name ∉ auxiliaryNames label

theorem Addable.mem_auxiliaryNames (h : e.Addable extra) {row : Row} (hrow : row ∈ extra)
    (hname : name ∈ (stems row.normalized.cmp).map (· ++ row.label.getD "")) :
    ∃ label, row.label = some label ∧ name ∈ auxiliaryNames label := by
  obtain ⟨label, hlabel, -⟩ := h.labelled row hrow
  rw [hlabel] at hname
  exact ⟨label, hlabel, (names_sublist _ _).subset hname⟩

theorem Addable.nodup_auxiliaries (h : e.Addable extra) :
    (extra.flatMap fun row => (stems row.normalized.cmp).map (· ++ row.label.getD "")).Nodup := by
  refine List.nodup_flatMap.mpr ⟨fun row _ => (nodup_auxiliaryNames _).sublist (names_sublist _ _), ?_⟩
  refine (List.pairwise_map.mp h.labels_nodup).imp_of_mem fun {row other} hrow hother hne => ?_
  intro name hname hname'
  obtain ⟨label, hlabel, hmem⟩ := h.mem_auxiliaryNames hrow hname
  obtain ⟨label', hlabel', hmem'⟩ := h.mem_auxiliaryNames hother hname'
  refine disjoint_auxiliaryNames (fun heq => hne ?_) hmem hmem'
  rw [hlabel, hlabel', heq]

/-- The name of a generated column is that of an auxiliary of the equations. -/
theorem exists_of_mem_generated (he : ofRows objective rows condition split internalFrom = .ok e)
    (hname : name ∈ generated rows internalFrom) :
    ∃ c ∈ e.columns, c.role.isVariable = false ∧ c.name = name := by
  obtain ⟨h, hcol⟩ := laidOut_of_ofRows he
  obtain ⟨p, hp, rfl⟩ := List.mem_map.mp hname
  obtain ⟨own, hown, hmem⟩ := List.mem_flatten.mp hp
  obtain ⟨i, hi⟩ := List.mem_iff_getElem?.mp hown
  obtain ⟨row, hrow⟩ : ∃ row, (rows.map Row.normalized)[i]? = some row :=
    ⟨_, List.getElem?_eq_getElem (h.length_aux ▸ (List.getElem?_eq_some_iff.mp hi).1)⟩
  obtain ⟨label, internal, haux⟩ := h.getElem?_aux hrow
  rw [Option.some.inj (hi.symm.trans haux)] at hmem
  refine ⟨p.1, ?_, isVariable_of_mem_auxiliaries hmem, rfl⟩
  rw [hcol]
  exact List.mem_append_right _ (List.mem_map_of_mem hp)

/-- Rows that may be added have equations together with the first ones. -/
theorem exists_ofRows_append (he : ofRows objective rows condition split internalFrom = .ok e)
    (h : e.Addable extra) : ∃ e', ofRows objective (rows ++ extra) condition split internalFrom = .ok e' := by
  have hnames := names_of_ofRows he
  have hnodup := (laidOut_of_ofRows he).1.names_nodup
  rw [hnames, List.nodup_append'] at hnodup
  obtain ⟨-, hgenerated, hdisjoint⟩ := hnodup
  have hlabelled : ∀ row ∈ extra, row.label ≠ none := by
    intro row hrow
    obtain ⟨label, hlabel, -⟩ := h.labelled row hrow
    rw [hlabel]
    exact Option.some_ne_none label
  refine exists_ofRows ?_ condition split
  rw [generated_append hlabelled, List.nodup_append', List.nodup_append', List.disjoint_append_right]
  refine ⟨nodup_firstOccurrences _, ⟨hgenerated, h.nodup_auxiliaries, ?_⟩, ?_, ?_⟩
  · -- the auxiliaries of the first rows and those of the rows that are added
    intro name hname hadded
    obtain ⟨row, hrow, hmem⟩ := List.mem_flatMap.mp hadded
    obtain ⟨label, hlabel, hmem⟩ := h.mem_auxiliaryNames hrow hmem
    obtain ⟨label', hlabel', hfree⟩ := h.labelled row hrow
    obtain rfl := Option.some.inj (hlabel'.symm.trans hlabel)
    exact hfree name hmem (hnames ▸ List.mem_append_right _ hname)
  · -- the unknowns and the auxiliaries of the first rows
    intro name hname hold
    rcases mem_unknownsOf_append.mp hname with hunknown | ⟨row, hrow, hmem⟩
    · exact hdisjoint hunknown hold
    · obtain ⟨c, hc, haux, hcname⟩ := exists_of_mem_generated he hold
      exact (h.names row hrow name (Row.mem_names_of_normalized hmem)).1 c hc haux hcname
  · -- the unknowns and the auxiliaries of the rows that are added
    intro name hname hadded
    obtain ⟨row, hrow, hmem⟩ := List.mem_flatMap.mp hadded
    obtain ⟨label, hlabel, hmem⟩ := h.mem_auxiliaryNames hrow hmem
    rcases mem_unknownsOf_append.mp hname with hunknown | ⟨row', hrow', hmem'⟩
    · obtain ⟨label', hlabel', hfree⟩ := h.labelled row hrow
      obtain rfl := Option.some.inj (hlabel'.symm.trans hlabel)
      exact hfree name hmem (hnames ▸ List.mem_append_left _ hunknown)
    · exact (h.names row' hrow' name (Row.mem_names_of_normalized hmem')).2 row hrow label hlabel hmem

end Append

/-! ## Feasible points of more rows -/

section Restriction

/-- The assignment that a point gives to the names of the columns. -/
theorem exists_gives (hnd : (e.columns.map Column.name).Nodup) (x : ColumnPoint) : ∃ z, e.Gives x z := by
  refine ⟨fun name => x ((e.columns.map Column.name).idxOf name), fun j c hj _ => ?_⟩
  obtain ⟨hlt, rfl⟩ := List.getElem?_eq_some_iff.mp hj
  have hidx := hnd.idxOf_getElem j (by simpa using hlt)
  rw [List.getElem_map] at hidx
  exact (congrArg x hidx).symm

/-- The value of a point is that of the assignment that it gives. -/
theorem LaidOut.value_of_gives (h : e.LaidOut names rows unknowns aux) {objective : Terms}
    (hnd : objective.names.Nodup) (hsub : ∀ name ∈ objective.names, name ∈ unknowns) (hgives : e.Gives x z) :
    e.value objective x = objective.eval z := by
  rw [← h.value_entries hnd hsub z]
  refine sum_congr rfl fun j _ => ?_
  have hj : e.columns[(j : Nat)]? = some e.columns[j] := List.getElem?_eq_getElem j.isLt
  by_cases hvar : e.columns[j].role.isVariable = true
  · rw [hgives j _ hj hvar, h.gives_entries z j _ hj hvar]
  · have hno : e.columns[j].name ∉ objective.names := fun hmem =>
      h.name_not_mem_unknowns (List.getElem_mem j.isLt) (Bool.eq_false_iff.mpr hvar) (hsub _ hmem)
    rw [Terms.coefficient_of_not_mem hno, zero_mul, zero_mul]

/-- A feasible point of more rows gives one of the first rows, with the same value. -/
theorem exists_feasible_of_append {objective : Terms}
    (he : ofRows objective.names rows condition split internalFrom = .ok e)
    (he' : ofRows objective.names (rows ++ extra) condition split internalFrom = .ok e')
    (hobj : objective.names.Nodup) (hnd : ∀ row ∈ rows ++ extra, row.names.Nodup) (hx : e'.Feasible x) :
    ∃ y, e.Feasible y ∧ e.value objective y = e'.value objective x := by
  have h := (laidOut_of_ofRows he).1
  have h' := (laidOut_of_ofRows he').1
  obtain ⟨z, hgives⟩ := exists_gives h'.names_nodup x
  obtain ⟨hnn, hrows⟩ := (feasible_iff he' hnd z).mp ⟨x, hx, hgives⟩
  have hfirst : ∃ y, e.Feasible y ∧ e.Gives y z :=
    (feasible_iff he (fun row hrow => hnd row (List.mem_append_left _ hrow)) z).mpr
      ⟨fun name hname => hnn name (mem_unknownsOf_append.mpr (Or.inl hname)),
        fun row hrow => hrows row (List.mem_append_left _ hrow)⟩
  obtain ⟨y, hy, hgives'⟩ := hfirst
  refine ⟨y, hy, ?_⟩
  rw [h.value_of_gives hobj (fun _ hname => h.mem_unknowns_of_objective hname) hgives',
    h'.value_of_gives hobj (fun _ hname => h'.mem_unknowns_of_objective hname) hgives]

end Restriction

end ExactLP.Equations
