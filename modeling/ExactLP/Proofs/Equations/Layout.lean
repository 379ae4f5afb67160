import ExactLP.Proofs.Equations.Blocks
import ExactLP.Proofs.Named
import Mathlib.Algebra.Order.Field.Rat

/-!
# Proofs.Equations.Layout — how the equations of some rows are laid out

The unknowns come first, then a block of auxiliary columns for each row, then the right side.  Each basic
column is the last one of its block: it reads one in its own row and zero in every other.

* `LaidOut`, `exists_laidOut`: the pieces that `Equations.ofRows` puts together.
* `Role.isVariable`, `LaidOut.isVariable_iff`: the columns of the unknowns.
* `equation_eq`, `equation_auxiliary`, `equation_rhs`: the entries of a row.
* `LaidOut.basic_spec`: the basic column of a row.
-/

namespace ExactLP

/-- A normalized row has no negative right side. -/
theorem Row.rhs_normalized_nonneg (row : Row) : 0 ≤ row.normalized.rhs := by
  unfold Row.normalized
  split
  · rename_i hneg
    exact (neg_pos.mpr hneg).le
  · rename_i hnot
    exact not_lt.mp hnot

/-- The column of a variable, not an auxiliary one. -/
def Role.isVariable : Role → Bool
  | decision | condition | positivePart _ | negativePart _ => true
  | surplus _ | excess _ | pseudo _ | artificial _ => false

theorem Role.isForbidden_of_isVariable {r : Role} (h : r.isVariable = true) : r.isForbidden = false := by
  cases r with
  | decision | condition | positivePart _ | negativePart _ => rfl
  | surplus _ | excess _ | pseudo _ | artificial _ => exact absurd h (by simp [isVariable])

theorem Role.isPseudo_of_isVariable {r : Role} (h : r.isVariable = true) : r.isPseudo = false :=
  (Bool.or_eq_false_iff.mp (isForbidden_of_isVariable h)).2

namespace Equations

variable {e : Equations} {objective unknowns : List String} {rows : List Row} {own : List (Column × Rat)}
  {aux : List (List (Column × Rat))} {b i j k : Nat} {c : Column} {q : Rat} {row : Row}

/-- The equations `e` of some normalized rows, from their unknowns and their auxiliaries. -/
structure LaidOut (e : Equations) (objective : List String) (rows : List Row) (unknowns : List String)
    (aux : List (List (Column × Rat))) : Prop where
  rhs_nonneg : ∀ row ∈ rows, 0 ≤ row.rhs
  unknowns_eq : unknowns = firstOccurrences (objective ++ rows.flatMap Row.names)
  aux_eq : ∃ internalFrom, aux = allAuxiliaries rows internalFrom
  columns_eq : ∃ condition split,
    e.columns = unknowns.map (variableColumn condition split) ++ aux.flatten.map Prod.fst
  rows_eq : e.rows = rows.mapIdx (equation unknowns aux)
  basis_eq : e.basis = basicPositions unknowns.length aux
  names_nodup : (e.columns.map Column.name).Nodup

/-- The names of the variable columns of some rows. -/
def unknownsOf (objective : List String) (rows : List Row) : List String :=
  firstOccurrences (objective ++ (rows.map Row.normalized).flatMap Row.names)

variable {condition split : List String} {internalFrom : Option Int}

/-- The layout of the equations of some rows, and their columns. -/
theorem laidOut_of_ofRows (h : ofRows objective rows condition split internalFrom = .ok e) :
    e.LaidOut objective (rows.map Row.normalized) (unknownsOf objective rows)
        (allAuxiliaries (rows.map Row.normalized) internalFrom) ∧
      e.columns = (unknownsOf objective rows).map (variableColumn condition split) ++
        (allAuxiliaries (rows.map Row.normalized) internalFrom).flatten.map Prod.fst := by
  unfold ofRows at h
  simp only at h
  split at h
  · exact absurd h (by simp [bind, Except.bind, throw, throwThe, MonadExceptOf.throw])
  · rename_i hlen
    obtain rfl := Except.ok.inj h
    refine ⟨⟨?_, rfl, ⟨internalFrom, rfl⟩, ⟨condition, split, rfl⟩, rfl, rfl, ?_⟩, rfl⟩
    · intro row hrow
      obtain ⟨r, -, rfl⟩ := List.mem_map.mp hrow
      exact r.rhs_normalized_nonneg
    · exact nodup_of_length_firstOccurrences ((not_not.mp hlen).trans (List.length_map _).symm)

theorem exists_laidOut (h : ofRows objective rows condition split internalFrom = .ok e) :
    ∃ unknowns aux, e.LaidOut objective (rows.map Row.normalized) unknowns aux :=
  ⟨_, _, (laidOut_of_ofRows h).1⟩

/-! ## Auxiliaries -/

section Auxiliaries

/-- The last auxiliary of a row has coefficient one and may be basic. -/
theorem auxiliaries_last (cmp : Comparator) (label : String) (internal : Bool) :
    ∃ init c, auxiliaries cmp label internal = init ++ [(c, 1)] ∧ c.eliminated = false ∧
      c.role.isPseudo = false := by
  cases cmp
  · exact ⟨[], _, rfl, rfl, rfl⟩
  · exact ⟨[], _, rfl, rfl, rfl⟩
  · exact ⟨[_], _, rfl, rfl, rfl⟩
  · exact ⟨[_], _, rfl, rfl, rfl⟩
  · exact ⟨[_], _, rfl, rfl, rfl⟩

theorem eliminated_of_mem_auxiliaries {cmp : Comparator} {label : String} {internal : Bool}
    (h : (c, q) ∈ auxiliaries cmp label internal) : c.eliminated = false := by
  cases cmp <;> simp only [auxiliaries, List.mem_cons, Prod.mk.injEq, List.not_mem_nil, or_false] at h
  · rw [h.1]
  · rw [h.1]
  all_goals
    rcases h with ⟨rfl, -⟩ | ⟨rfl, -⟩
    · rfl
    · rfl

theorem eliminated_variableColumn (condition split : List String) (name : String) :
    (variableColumn condition split name).eliminated = false := by
  unfold variableColumn
  split <;> rfl

theorem name_variableColumn (condition split : List String) (name : String) :
    (variableColumn condition split name).name = name := by
  unfold variableColumn
  split <;> rfl

theorem map_name_variableColumn (condition split names : List String) :
    (names.map (variableColumn condition split)).map Column.name = names := by
  rw [List.map_map]
  refine (List.map_congr_left ?_).trans (List.map_id names)
  exact fun name _ => name_variableColumn condition split name

theorem isVariable_variableColumn (condition split : List String) (name : String) :
    (variableColumn condition split name).role.isVariable = true := by
  unfold variableColumn
  split
  · dsimp only
    split <;> rfl
  · dsimp only
    split <;> rfl

theorem isVariable_of_mem_auxiliaries {cmp : Comparator} {label : String} {internal : Bool}
    (h : (c, q) ∈ auxiliaries cmp label internal) : c.role.isVariable = false := by
  cases cmp <;> simp only [auxiliaries, List.mem_cons, Prod.mk.injEq, List.not_mem_nil, or_false] at h
  · rw [h.1]
    rfl
  · rw [h.1]
    rfl
  all_goals
    rcases h with ⟨rfl, -⟩ | ⟨rfl, -⟩
    · rfl
    · rfl

end Auxiliaries

/-! ## Entries of a row -/

section Entries

/-- The coefficients of a row over the auxiliaries of all rows, block by block. -/
def auxiliaryPart (aux : List (List (Column × Rat))) (i : Nat) : List (List Rat) :=
  aux.mapIdx fun j own => own.map fun (_, c) => if i = j then c else 0

theorem equation_eq (unknowns : List String) (aux : List (List (Column × Rat))) (i : Nat) (row : Row) :
    equation unknowns aux i row =
      unknowns.map row.terms.coefficient ++ ((auxiliaryPart aux i).flatten ++ [row.rhs]) :=
  List.append_assoc _ _ _

theorem map_length_auxiliaryPart (aux : List (List (Column × Rat))) (i : Nat) :
    (auxiliaryPart aux i).map List.length = aux.map List.length := by
  refine List.ext_getElem? ?_
  intro b
  rw [auxiliaryPart, List.getElem?_map, List.getElem?_map, List.getElem?_mapIdx, Option.map_map]
  congr 1
  funext own
  exact List.length_map _

theorem length_auxiliaryPart (aux : List (List (Column × Rat))) (i : Nat) :
    (auxiliaryPart aux i).flatten.length = aux.flatten.length :=
  length_flatten_congr (map_length_auxiliaryPart aux i)

theorem length_equation (unknowns : List String) (aux : List (List (Column × Rat))) (i : Nat) (row : Row) :
    (equation unknowns aux i row).length = unknowns.length + aux.flatten.length + 1 := by
  rw [equation_eq, List.length_append, List.length_map, List.length_append, length_auxiliaryPart,
    List.length_singleton, Nat.add_assoc]

theorem equation_auxiliary (unknowns : List String) (i : Nat) (row : Row) (hb : aux[b]? = some own)
    (hk : own[k]? = some (c, q)) :
    (equation unknowns aux i row).getD (unknowns.length + (blockStart aux b + k)) 0 =
      if i = b then q else 0 := by
  obtain ⟨hlt, -⟩ := List.getElem?_eq_some_iff.mp hk
  have hblock : (auxiliaryPart aux i)[b]? = some (own.map fun (_, c) => if i = b then c else 0) := by
    rw [auxiliaryPart, List.getElem?_mapIdx, hb]
    rfl
  have hstart := blockStart_congr (map_length_auxiliaryPart aux i) b
  have hpos := blockStart_add_lt hblock (k := k) (by simpa using hlt)
  have hget := getElem?_flatten hblock (k := k) (by simpa using hlt)
  rw [hstart] at hpos hget
  rw [equation_eq, List.getD_eq_getElem?_getD, List.getElem?_append_right (by simp), List.length_map,
    Nat.add_sub_cancel_left, List.getElem?_append_left hpos, hget, List.getElem?_map, hk]
  rfl

theorem equation_rhs (unknowns : List String) (aux : List (List (Column × Rat))) (i : Nat) (row : Row) :
    (equation unknowns aux i row).getD (unknowns.length + aux.flatten.length) 0 = row.rhs := by
  rw [equation_eq, List.getD_eq_getElem?_getD, List.getElem?_append_right (by simp), List.length_map,
    Nat.add_sub_cancel_left, List.getElem?_append_right (length_auxiliaryPart aux i).le, length_auxiliaryPart,
    Nat.sub_self]
  rfl

end Entries

/-! ## The layout as a whole -/

section Whole

variable (h : e.LaidOut objective rows unknowns aux)
include h

theorem LaidOut.getElem?_aux (hi : rows[i]? = some row) :
    ∃ label internal, aux[i]? = some (auxiliaries row.cmp label internal) := by
  obtain ⟨internalFrom, rfl⟩ := h.aux_eq
  exact ⟨_, _, by rw [allAuxiliaries, List.getElem?_mapIdx, hi]; rfl⟩

theorem LaidOut.length_aux : aux.length = rows.length := by
  obtain ⟨internalFrom, rfl⟩ := h.aux_eq
  exact List.length_mapIdx

theorem LaidOut.length_rows : e.rows.length = rows.length := by
  rw [h.rows_eq, List.length_mapIdx]

theorem LaidOut.length_basis : e.basis.length = rows.length := by
  rw [h.basis_eq, length_basicPositions, h.length_aux]

theorem LaidOut.length_columns : e.columns.length = unknowns.length + aux.flatten.length := by
  obtain ⟨condition, split, hcol⟩ := h.columns_eq
  rw [hcol, List.length_append, List.length_map, List.length_map]

theorem LaidOut.getElem?_rows (hi : rows[i]? = some row) :
    e.rows[i]? = some (equation unknowns aux i row) := by
  rw [h.rows_eq, List.getElem?_mapIdx, hi]
  rfl

theorem LaidOut.length_row {line : List Rat} (hline : line ∈ e.rows) :
    line.length = e.columns.length + 1 := by
  rw [h.rows_eq, List.mem_mapIdx] at hline
  obtain ⟨i, hi, rfl⟩ := hline
  rw [length_equation, h.length_columns]

theorem LaidOut.not_eliminated (hc : c ∈ e.columns) : c.eliminated = false := by
  obtain ⟨condition, split, hcol⟩ := h.columns_eq
  rw [hcol, List.mem_append, List.mem_map, List.mem_map] at hc
  rcases hc with ⟨name, -, rfl⟩ | ⟨⟨a, q⟩, hmem, rfl⟩
  · exact eliminated_variableColumn condition split name
  · obtain ⟨own, hown, ha⟩ := List.mem_flatten.mp hmem
    obtain ⟨i, hi⟩ := List.mem_iff_getElem?.mp hown
    have hlt : i < rows.length := h.length_aux ▸ (List.getElem?_eq_some_iff.mp hi).1
    obtain ⟨label, internal, haux⟩ := h.getElem?_aux (List.getElem?_eq_getElem hlt)
    rw [Option.some.inj (hi.symm.trans haux)] at ha
    exact eliminated_of_mem_auxiliaries ha

theorem LaidOut.getElem?_columns_auxiliary (hb : aux[b]? = some own) (hk : own[k]? = some (c, q)) :
    e.columns[unknowns.length + (blockStart aux b + k)]? = some c := by
  obtain ⟨condition, split, hcol⟩ := h.columns_eq
  obtain ⟨hlt, -⟩ := List.getElem?_eq_some_iff.mp hk
  rw [hcol, List.getElem?_append_right (by simp), List.length_map, Nat.add_sub_cancel_left,
    List.getElem?_map, getElem?_flatten hb hlt, hk]
  rfl

/-- The columns of the unknowns stand first, under their names. -/
theorem LaidOut.getElem?_columns_unknown (hj : j < unknowns.length) :
    ∃ c, e.columns[j]? = some c ∧ c.name = unknowns[j] ∧ c.role.isVariable = true := by
  obtain ⟨condition, split, hcol⟩ := h.columns_eq
  refine ⟨variableColumn condition split unknowns[j], ?_, name_variableColumn _ _ _,
    isVariable_variableColumn _ _ _⟩
  rw [hcol, List.getElem?_append_left (by simpa using hj), List.getElem?_map, List.getElem?_eq_getElem hj]
  rfl

/-- A column behind the unknowns is an auxiliary of some row. -/
theorem LaidOut.exists_auxiliary (hj : e.columns[j]? = some c) (hge : unknowns.length ≤ j) :
    ∃ i row label internal k q, rows[i]? = some row ∧
      aux[i]? = some (auxiliaries row.cmp label internal) ∧
      (auxiliaries row.cmp label internal)[k]? = some (c, q) ∧
      j = unknowns.length + (blockStart aux i + k) := by
  have hlt := (List.getElem?_eq_some_iff.mp hj).1
  rw [h.length_columns] at hlt
  obtain ⟨i, own, k, hi, hk, hpos⟩ := exists_block (show j - unknowns.length < aux.flatten.length by omega)
  obtain rfl : j = unknowns.length + (blockStart aux i + k) := by omega
  have hget := h.getElem?_columns_auxiliary hi (List.getElem?_eq_getElem hk)
  have hrow := List.getElem?_eq_getElem (h.length_aux ▸ (List.getElem?_eq_some_iff.mp hi).1)
  obtain ⟨label, internal, haux⟩ := h.getElem?_aux hrow
  have hown := Option.some.inj (hi.symm.trans haux)
  refine ⟨i, _, label, internal, k, own[k].2, hrow, haux, ?_, rfl⟩
  rw [← hown, List.getElem?_eq_getElem hk, ← Option.some.inj (hget.symm.trans hj)]
  rfl

/-- The columns of the unknowns are those of variables. -/
theorem LaidOut.isVariable_iff (hj : e.columns[j]? = some c) :
    c.role.isVariable = true ↔ j < unknowns.length := by
  constructor
  · intro hvar
    by_contra hge
    obtain ⟨i, row, label, internal, k, q, -, -, hk, -⟩ := h.exists_auxiliary hj (not_lt.mp hge)
    rw [isVariable_of_mem_auxiliaries (List.mem_of_getElem? hk)] at hvar
    exact absurd hvar (by simp)
  · intro hlt
    obtain ⟨c', hj', -, hvar⟩ := h.getElem?_columns_unknown hlt
    rwa [Option.some.inj (hj.symm.trans hj')]

/-- The column of a variable has an unknown for its name. -/
theorem LaidOut.name_mem_unknowns (hc : c ∈ e.columns) (hvar : c.role.isVariable = true) :
    c.name ∈ unknowns := by
  obtain ⟨j, hj⟩ := List.mem_iff_getElem?.mp hc
  have hlt := (h.isVariable_iff hj).mp hvar
  obtain ⟨c', hj', hname, -⟩ := h.getElem?_columns_unknown hlt
  rw [Option.some.inj (hj.symm.trans hj'), hname]
  exact List.getElem_mem hlt

/-- Every unknown has a column. -/
theorem LaidOut.exists_variable {name : String} (hname : name ∈ unknowns) :
    ∃ c ∈ e.columns, c.name = name ∧ c.role.isVariable = true := by
  obtain ⟨j, hj, rfl⟩ := List.mem_iff_getElem.mp hname
  obtain ⟨c, hcol, hc⟩ := h.getElem?_columns_unknown hj
  exact ⟨c, List.mem_of_getElem? hcol, hc⟩

theorem LaidOut.mem_unknowns_of_objective {name : String} (hname : name ∈ objective) : name ∈ unknowns := by
  rw [h.unknowns_eq, mem_firstOccurrences]
  exact List.mem_append_left _ hname

/-- Columns have names of their own. -/
theorem LaidOut.eq_of_name {c' : Column} (hj : e.columns[j]? = some c) (hk : e.columns[k]? = some c')
    (hname : c.name = c'.name) : j = k := by
  have hlt : j < (e.columns.map Column.name).length := by
    rw [List.length_map]
    exact (List.getElem?_eq_some_iff.mp hj).1
  refine (List.getElem?_inj hlt h.names_nodup).mp ?_
  rw [List.getElem?_map, List.getElem?_map, hj, hk, Option.map_some, Option.map_some, hname]

/-- The name of an auxiliary column is not that of an unknown. -/
theorem LaidOut.name_not_mem_unknowns (hc : c ∈ e.columns) (haux : c.role.isVariable = false) :
    c.name ∉ unknowns := by
  intro hmem
  obtain ⟨v, hv, hname, hvar⟩ := h.exists_variable hmem
  obtain rfl := List.inj_on_of_nodup_map h.names_nodup hv hc hname
  rw [hvar] at haux
  cases haux

theorem LaidOut.auxiliary_not_mem_unknowns (hj : e.columns[j]? = some c) (hge : unknowns.length ≤ j) :
    c.name ∉ unknowns := by
  refine h.name_not_mem_unknowns (List.mem_of_getElem? hj) (Bool.eq_false_iff.mpr fun hvar => ?_)
  exact not_lt.mpr hge ((h.isVariable_iff hj).mp hvar)

/-- The basic column of a row is an auxiliary that may be basic, and reads one in this row only. -/
theorem LaidOut.basic_spec (hi : i < rows.length) :
    ∃ b c, e.basis[i]? = some b ∧ e.columns[b]? = some c ∧ c.eliminated = false ∧
      c.role.isPseudo = false ∧ c.name ∉ unknowns ∧
      ∀ (k : Nat) (line : List Rat), e.rows[k]? = some line → line.getD b 0 = if k = i then 1 else 0 := by
  obtain ⟨label, internal, haux⟩ := h.getElem?_aux (List.getElem?_eq_getElem hi)
  obtain ⟨init, c, hlast, helim, hpseudo⟩ := auxiliaries_last rows[i].cmp label internal
  rw [hlast] at haux
  have hk : (init ++ [(c, (1 : Rat))])[init.length]? = some (c, 1) := by
    rw [List.getElem?_append_right le_rfl, Nat.sub_self]
    rfl
  have hcol := h.getElem?_columns_auxiliary haux hk
  refine ⟨_, c, ?_, hcol, helim, hpseudo,
    h.auxiliary_not_mem_unknowns hcol (Nat.le_add_right _ _), ?_⟩
  · rw [h.basis_eq, getElem?_basicPositions _ haux, List.length_append, List.length_singleton]
    rfl
  · intro k line hline
    have hlt : k < rows.length := h.length_rows ▸ (List.getElem?_eq_some_iff.mp hline).1
    rw [Option.some.inj (hline.symm.trans (h.getElem?_rows (List.getElem?_eq_getElem hlt))),
      equation_auxiliary unknowns k _ haux hk]

theorem LaidOut.rhs_of_row {line : List Rat} (hline : e.rows[i]? = some line) :
    0 ≤ line.getD e.columns.length 0 := by
  have hlt : i < rows.length := h.length_rows ▸ (List.getElem?_eq_some_iff.mp hline).1
  rw [Option.some.inj (hline.symm.trans (h.getElem?_rows (List.getElem?_eq_getElem hlt))),
    h.length_columns, equation_rhs]
  exact h.rhs_nonneg _ (List.getElem_mem hlt)

end Whole

end Equations

end ExactLP
