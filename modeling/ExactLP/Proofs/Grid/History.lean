import ExactLP.Proofs.Grid.Inverse

/-!
# Proofs.Grid.History — sheets over a history of calls

A call redraws one row or one column of a grid, or it fails and leaves the sheet as it was.  A history of calls,
questions and copies therefore keeps the shape of every sheet, and since a call that changes an entry forgets the
determinant and nothing else changes the entries, a question is always answered from the entries that are there.

* `Call`, `Request`: what may be asked of sheets, with any arguments.
* `Sheet.Sound`, `Sheet.Redraws`: what a sheet remembers is right, and what an edit keeps of that.
* `Call.redraws`: what one call does to a sheet.
* `sound_serve`: what one request keeps, and `sound_served`, what a history keeps.
* `history_kept`: what holds after every history, and of every request that comes next.
-/

namespace ExactLP

/-- The place lies on the line. -/
def Line.Has : Line → Nat → Nat → Prop
  | .row r, i, _ => i = r
  | .column c, _, j => j = c

/-! ## Grids with one line drawn anew -/

namespace Grid

variable {g g' : Grid} {rows : List (List Operand)} {m n i j : Nat} {index active reference column : Int}
  {values : List Rat} {k : Rat} {line : Line}

/-- The second grid has the shape `m` by `n`, and the entries of the first one outside a line. -/
structure Redrawn (m n : Nat) (line : Line) (g g' : Grid) : Prop where
  shaped : g'.Shaped m n
  entry_eq : ∀ a b, ¬line.Has a b → g'.entry a b = g.entry a b

section Lines

theorem rowAt_ok (h : g.rowAt index = .ok i) : resolveIndex index g.rowCount = some i := by
  unfold rowAt at h
  split at h
  · rename_i hfound
    exact hfound.trans (congrArg some (Except.ok.inj h))
  · cases h

theorem columnAt_ok (h : g.columnAt index = .ok j) : resolveIndex index g.columnCount = some j := by
  unfold columnAt at h
  split at h
  · rename_i hfound
    exact hfound.trans (congrArg some (Except.ok.inj h))
  · cases h

theorem Shaped.redrawn_row (hs : g.Shaped m n) (hi : i < g.rowCount) (hv : values.length = n) :
    Redrawn m n (.row i) g (g.replaceRow i values) := by
  obtain ⟨hshaped, -, hother⟩ := hs.replaceRow_spec (hs.rowCount_eq ▸ hi) hv
  exact ⟨hshaped, fun a b ha => hother a ha b⟩

theorem Shaped.redrawn_column (hs : g.Shaped m n) (hv : values.length = g.rowCount) :
    Redrawn m n (.column j) g (g.replaceColumn j values) where
  shaped := hs.replaceColumn hv j
  entry_eq := by
    intro a b hb
    rw [entry, line_replaceColumn hv, List.getD_eq_getElem?_getD, List.getElem?_set_ne (Ne.symm hb),
      ← List.getD_eq_getElem?_getD]
    rfl

end Lines

/-! ## Grids that are read -/

section Reading

/-- Rows that are let through are not none, and all have the length of the first one, which is not empty. -/
theorem rectangular_of_checkShape {α : Type} {rows : List (List α)} (h : checkShape rows = .ok ()) :
    0 < rows.length ∧ ∃ width, 0 < width ∧ ∀ row ∈ rows, row.length = width := by
  unfold checkShape at h
  split at h
  · cases h
  · rename_i first rest
    split at h
    · cases h
    · rename_i hfirst
      split at h
      · rename_i hrest
        refine ⟨Nat.succ_pos _, first.length, ?_, ?_⟩
        · exact List.length_pos_of_ne_nil fun hnil => hfirst (List.isEmpty_iff.mpr hnil)
        · intro row hrow
          rcases List.mem_cons.mp hrow with rfl | hrow
          · rfl
          · exact beq_iff_eq.mp (List.all_eq_true.mp hrest row hrow)
      · cases h

/-- A grid that is read has a row and a column, and all its rows are of one length. -/
theorem shaped_of_read (h : read rows = .ok g) :
    g.Shaped g.rowCount g.columnCount ∧ 0 < g.rowCount ∧ 0 < g.columnCount := by
  obtain ⟨⟨⟩, hshape, h⟩ := ok_of_bind h
  obtain ⟨values, hvalues, h⟩ := ok_of_bind h
  obtain rfl := Except.ok.inj h
  obtain ⟨hheight, width, hwidth, hrows⟩ := rectangular_of_checkShape hshape
  have hall := forall₂_of_mapM hvalues
  have hshaped : Shaped ⟨values⟩ rows.length width := by
    refine ⟨hall.length_eq.symm, fun row hrow => ?_⟩
    obtain ⟨i, hi, rfl⟩ := List.mem_iff_getElem.mp hrow
    have hi' : i < rows.length := hall.length_eq ▸ hi
    rw [← hrows _ (List.getElem_mem hi')]
    exact (forall₂_of_mapM (hall.get hi' hi)).length_eq.symm
  have hcolumns := hshaped.columnCount_eq hheight
  exact ⟨by rwa [hshaped.rowCount_eq, hcolumns], by rwa [hshaped.rowCount_eq], by rwa [hcolumns]⟩

end Reading

/-! ## Row operations that go through -/

section Operations

theorem Shaped.setRow_redrawn (hs : g.Shaped m n) (hm : 0 < m) (h : g.setRow index values = .ok g') :
    ∃ i, resolveIndex index g.rowCount = some i ∧ Redrawn m n (.row i) g g' := by
  unfold setRow at h
  split at h
  · cases h
  · rename_i hlength
    obtain ⟨i, hi, hg'⟩ := ok_of_bind h
    obtain rfl := Except.ok.inj hg'
    have hi := rowAt_ok hi
    exact ⟨i, hi, hs.redrawn_row (resolveIndex_lt hi) ((not_not.mp hlength).trans (hs.columnCount_eq hm))⟩

theorem Shaped.setColumn_redrawn (hs : g.Shaped m n) (h : g.setColumn index values = .ok g') :
    ∃ j, resolveIndex index g.columnCount = some j ∧ Redrawn m n (.column j) g g' := by
  unfold setColumn at h
  split at h
  · cases h
  · rename_i hlength
    obtain ⟨j, hj, hg'⟩ := ok_of_bind h
    obtain rfl := Except.ok.inj hg'
    exact ⟨j, columnAt_ok hj, hs.redrawn_column (not_not.mp hlength)⟩

theorem Shaped.scaleRow_redrawn (hs : g.Shaped m n) (h : g.scaleRow index k = .ok g') :
    ∃ i, resolveIndex index g.rowCount = some i ∧ Redrawn m n (.row i) g g' := by
  obtain ⟨i, hi, hg'⟩ := ok_of_bind h
  obtain rfl := Except.ok.inj hg'
  have hi := rowAt_ok hi
  have hlt := resolveIndex_lt hi
  refine ⟨i, hi, hs.redrawn_row hlt ?_⟩
  rw [List.length_map, hs.length_line (hs.rowCount_eq ▸ hlt)]

theorem Shaped.divideToOne_redrawn (hs : g.Shaped m n) (h : g.divideToOne index column = .ok g') :
    ∃ i, resolveIndex index g.rowCount = some i ∧ Redrawn m n (.row i) g g' := by
  obtain ⟨value, -, h⟩ := ok_of_bind h
  split at h
  · cases h
  · exact hs.scaleRow_redrawn h

theorem Shaped.combine_redrawn (hs : g.Shaped m n) (h : g.combine active reference k = .ok g') :
    ∃ i, resolveIndex active g.rowCount = some i ∧ Redrawn m n (.row i) g g' := by
  obtain ⟨i, hi, h⟩ := ok_of_bind h
  obtain ⟨r, hr, hg'⟩ := ok_of_bind h
  obtain rfl := Except.ok.inj hg'
  have hi := rowAt_ok hi
  have hlt := resolveIndex_lt hi
  have hr := resolveIndex_lt (rowAt_ok hr)
  rw [hs.rowCount_eq] at hr
  refine ⟨i, hi, hs.redrawn_row hlt ?_⟩
  rw [addScaled, List.length_zipWith, hs.length_line (hs.rowCount_eq ▸ hlt), hs.length_line hr, Nat.min_self]

/-- The row of an entry that is read is there, and left as it is it is redrawn. -/
theorem Shaped.redrawn_of_get {value : Rat} (hs : g.Shaped m n) (h : g.get index column = .ok value) :
    ∃ i, resolveIndex index g.rowCount = some i ∧ Redrawn m n (.row i) g g := by
  obtain ⟨i, hi, -⟩ := ok_of_bind h
  exact ⟨i, rowAt_ok hi, hs, fun _ _ _ => rfl⟩

theorem Shaped.zeroOut_redrawn (hs : g.Shaped m n) (h : g.zeroOut active reference column = .ok g') :
    ∃ i, resolveIndex active g.rowCount = some i ∧ Redrawn m n (.row i) g g' := by
  obtain ⟨value, hget, h⟩ := ok_of_bind h
  split at h
  · obtain rfl := Except.ok.inj h
    exact hs.redrawn_of_get hget
  · obtain ⟨pivot, -, h⟩ := ok_of_bind h
    split at h
    · cases h
    · exact hs.combine_redrawn h

end Operations

end Grid

/-! ## Calls -/

/-- An argument that stands for an index: the index, or the fault that its use meets when it is none. -/
abbrev Place := Except Fault Int

/-- A call that edits a sheet, with any arguments. -/
inductive Call where
  | setRow (row : Place) (entries : Entries)
  | setColumn (column : Place) (entries : Entries)
  | scaleRow (row : Place) (scalar : Operand)
  | divideToOne (row column : Place)
  | combine (active reference : Place) (scalar : Operand)
  | zeroOut (active reference column : Place)

namespace Call

section Defs

/-- An edit that fails with `fault`, unless what is looked at before fails already. -/
def refused {α : Type} (before : Grid → Except Fault α) (fault : Fault) : Edit Unit :=
  Sheet.edit fun g => do
    let _ ← before g
    throw fault

/-- The edit that a call makes.  A place that is no index is refused where it is used; the place of the reference row
is not used when the active entry is zero already. -/
def perform : Call → Edit Unit
  | setRow (.ok row) entries => Sheet.setRow row entries
  | setRow (.error fault) entries => refused (fun g => do g.setRow 0 (← entries.values g.columnCount)) fault
  | setColumn (.ok column) entries => Sheet.setColumn column entries
  | setColumn (.error fault) entries => refused (fun g => do g.setColumn 0 (← entries.values g.rowCount)) fault
  | scaleRow (.ok row) scalar => Sheet.scaleRow row scalar
  | scaleRow (.error fault) scalar => refused (fun _ => scalar.value) fault
  | divideToOne (.ok row) (.ok column) => Sheet.divideToOne row column
  | divideToOne (.ok row) (.error fault) => refused (fun g => g.rowAt row) fault
  | divideToOne (.error fault) _ => refused pure fault
  | combine (.ok active) (.ok reference) scalar => Sheet.combine active reference scalar
  | combine (.ok active) (.error fault) _ => refused (fun g => g.rowAt active) fault
  | combine (.error fault) _ _ => refused pure fault
  | zeroOut (.ok active) (.ok reference) (.ok column) => Sheet.zeroOut active reference column
  | zeroOut (.ok active) (.error fault) (.ok column) => Sheet.unlessZero active column (throw fault)
  | zeroOut (.ok active) _ (.error fault) => refused (fun g => g.rowAt active) fault
  | zeroOut (.error fault) _ _ => refused pure fault

/-- The row or the column that a call is made for, if it is there. -/
def line? : Call → Grid → Option Line
  | setColumn (.ok column) _, g => (resolveIndex column g.columnCount).map .column
  | setRow (.ok row) _, g | scaleRow (.ok row) _, g | divideToOne (.ok row) _, g | combine (.ok row) _ _, g
  | zeroOut (.ok row) _ _, g => (resolveIndex row g.rowCount).map .row
  | _, _ => none

end Defs

end Call

/-! ## Sheets that are edited -/

namespace Sheet

variable {x : Edit Unit} {f : Grid → Except Fault Grid} {line? : Grid → Option Line} {index : Int}

section Defs

/-- The sheet has the shape `m` by `n`, and what it remembers is right. -/
structure Sound (m n : Nat) (s : Sheet) : Prop where
  shaped : s.grid.Shaped m n
  remembers : s.Remembers

/-- On a sound sheet the computation fails and leaves the sheet as it was, or it goes through, redraws one line and
leaves a sound sheet. -/
def Redraws (x : Edit Unit) (line? : Grid → Option Line) : Prop :=
  ∀ ⦃m n : Nat⦄ ⦃s : Sheet⦄, s.Sound m n → 0 < m →
    (∃ fault, x.run s = (.error fault, s)) ∨
      ∃ t line, x.run s = (.ok (), t) ∧ t.Sound m n ∧ line? s.grid = some line ∧
        Grid.Redrawn m n line s.grid t.grid

end Defs

section Edits

/-- An edit forgets the determinant, so it only has to redraw a line of the grids that it goes through on. -/
theorem redraws_edit (h : ∀ {m n : Nat} {g g' : Grid}, g.Shaped m n → 0 < m → f g = .ok g' →
    ∃ line, line? g = some line ∧ Grid.Redrawn m n line g g') : Redraws (edit f) line? := by
  intro m n s hs hm
  rw [edit_run]
  cases hf : f s.grid with
  | error fault => exact Or.inl ⟨fault, rfl⟩
  | ok g =>
    obtain ⟨line, hline, hredrawn⟩ := h hs.shaped hm hf
    exact Or.inr ⟨_, line, rfl, ⟨hredrawn.shaped, fun d hd => nomatch hd⟩, hline, hredrawn⟩

theorem redraws_row (h : ∀ {m n : Nat} {g g' : Grid}, g.Shaped m n → 0 < m → f g = .ok g' →
    ∃ i, resolveIndex index g.rowCount = some i ∧ Grid.Redrawn m n (.row i) g g') :
    Redraws (edit f) fun g => (resolveIndex index g.rowCount).map .row := by
  refine redraws_edit fun hs hm hok => ?_
  obtain ⟨i, hi, hredrawn⟩ := h hs hm hok
  exact ⟨.row i, congrArg (Option.map Line.row) hi, hredrawn⟩

theorem redraws_throw (fault : Fault) (line? : Grid → Option Line) : Redraws (throw fault) line? :=
  fun _ _ _ _ _ => Or.inl ⟨fault, rfl⟩

/-- Where the entry is zero already the sheet stays, and what it remembers is still right. -/
theorem redraws_unlessZero (column : Int) (h : Redraws x fun g => (resolveIndex index g.rowCount).map .row) :
    Redraws (unlessZero index column x) fun g => (resolveIndex index g.rowCount).map .row := by
  intro m n s hs hm
  rw [unlessZero_run]
  cases hget : s.grid.get index column with
  | error fault => exact Or.inl ⟨fault, rfl⟩
  | ok value =>
    dsimp only
    split
    · obtain ⟨i, hi, hredrawn⟩ := hs.shaped.redrawn_of_get hget
      exact Or.inr ⟨s, .row i, rfl, hs, congrArg (Option.map Line.row) hi, hredrawn⟩
    · exact h hs hm

end Edits

end Sheet

namespace Call

open Sheet (Redraws redraws_edit redraws_row redraws_throw redraws_unlessZero)

section Redrawing

theorem redraws_refused {α : Type} (before : Grid → Except Fault α) (fault : Fault) (line? : Grid → Option Line) :
    Redraws (refused before fault) line? := by
  refine redraws_edit fun _ _ h => ?_
  obtain ⟨_, -, h⟩ := ok_of_bind h
  cases h

theorem redraws_setRow (row : Int) (entries : Entries) :
    Redraws (Sheet.setRow row entries) fun g => (resolveIndex row g.rowCount).map .row := by
  refine redraws_row fun hs hm h => ?_
  obtain ⟨values, -, h⟩ := ok_of_bind h
  exact hs.setRow_redrawn hm h

theorem redraws_setColumn (column : Int) (entries : Entries) :
    Redraws (Sheet.setColumn column entries) fun g => (resolveIndex column g.columnCount).map .column := by
  refine redraws_edit fun hs _ h => ?_
  obtain ⟨values, -, h⟩ := ok_of_bind h
  obtain ⟨j, hj, hredrawn⟩ := hs.setColumn_redrawn h
  exact ⟨.column j, congrArg (Option.map Line.column) hj, hredrawn⟩

theorem redraws_scaleRow (row : Int) (scalar : Operand) :
    Redraws (Sheet.scaleRow row scalar) fun g => (resolveIndex row g.rowCount).map .row := by
  refine redraws_row fun hs _ h => ?_
  obtain ⟨k, -, h⟩ := ok_of_bind h
  exact hs.scaleRow_redrawn h

theorem redraws_divideToOne (row column : Int) :
    Redraws (Sheet.divideToOne row column) fun g => (resolveIndex row g.rowCount).map .row :=
  redraws_row fun hs _ h => hs.divideToOne_redrawn h

theorem redraws_combine (active reference : Int) (scalar : Operand) :
    Redraws (Sheet.combine active reference scalar) fun g => (resolveIndex active g.rowCount).map .row := by
  refine redraws_row fun hs _ h => ?_
  obtain ⟨_, -, h⟩ := ok_of_bind h
  obtain ⟨_, -, h⟩ := ok_of_bind h
  obtain ⟨k, -, h⟩ := ok_of_bind h
  exact hs.combine_redrawn h

theorem redraws_zeroOut (active reference column : Int) :
    Redraws (Sheet.zeroOut active reference column) fun g => (resolveIndex active g.rowCount).map .row :=
  redraws_unlessZero column (redraws_row fun hs _ h => hs.zeroOut_redrawn h)

/-- Every call redraws the line that it is made for. -/
theorem redraws (c : Call) : Redraws c.perform c.line? := by
  cases c with
  | setRow row entries =>
    cases row with
    | ok row => exact redraws_setRow row entries
    | error fault => exact redraws_refused _ fault _
  | setColumn column entries =>
    cases column with
    | ok column => exact redraws_setColumn column entries
    | error fault => exact redraws_refused _ fault _
  | scaleRow row scalar =>
    cases row with
    | ok row => exact redraws_scaleRow row scalar
    | error fault => exact redraws_refused _ fault _
  | divideToOne row column =>
    rcases row with fault | row <;> rcases column with fault' | column
    · exact redraws_refused _ fault _
    · exact redraws_refused _ fault _
    · exact redraws_refused _ fault' _
    · exact redraws_divideToOne row column
  | combine active reference scalar =>
    rcases active with fault | active <;> rcases reference with fault' | reference
    · exact redraws_refused _ fault _
    · exact redraws_refused _ fault _
    · exact redraws_refused _ fault' _
    · exact redraws_combine active reference scalar
  | zeroOut active reference column =>
    cases active with
    | error fault => exact redraws_refused _ fault _
    | ok active =>
      rcases reference with fault | reference <;> rcases column with fault' | column
      · exact redraws_refused _ fault' _
      · exact redraws_unlessZero column (redraws_throw fault _)
      · exact redraws_refused _ fault' _
      · exact redraws_zeroOut active reference column

end Redrawing

end Call

/-! ## Sheets that are asked -/

namespace Sheet

variable {s : Sheet} {m n : Nat}

section Questions

/-- A sheet that is asked answers from its entries, and keeps them. -/
theorem Sound.determinant_run (hs : s.Sound m n) (hm : 0 < m) :
    ∃ t, determinant.run s = (.ok (if m = n then some (s.grid.matrix m).det else none), t) ∧ t.Sound m n ∧
      t.grid = s.grid := by
  refine ⟨⟨s.grid, s.grid.determinant?⟩, ?_, ⟨hs.shaped, fun d hd => hd⟩, rfl⟩
  rw [hs.remembers.determinant_run, Grid.determinant?_eq hs.shaped hm]

end Questions

end Sheet

/-! ## Histories -/

/-- What may be asked of one of several sheets, which are numbered. -/
inductive Request where
  | call (i : Nat) (c : Call)
  | ask (i : Nat)
  | clone (i : Nat)

namespace Request

section Defs

/-- The number of the sheet that is asked. -/
def target : Request → Nat
  | call i _ | ask i | clone i => i

/-- What a computation on sheet `i` answers, and the sheets after it. -/
def onSheet (sheets : List Sheet) (i : Nat) (x : Edit (Option Rat)) : Except Fault (Option Rat) × List Sheet :=
  match sheets[i]? with
  | some s => ((x.run s).1, sheets.set i (x.run s).2)
  | none => (.error .outOfRange, sheets)

/-- The answer to a request, and the sheets after it.  A copy comes after the other sheets. -/
def serve : Request → List Sheet → Except Fault (Option Rat) × List Sheet
  | call i c, sheets => onSheet sheets i do
    c.perform
    return none
  | ask i, sheets => onSheet sheets i Sheet.determinant
  | clone i, sheets =>
    match sheets[i]? with
    | some s => (.ok none, sheets ++ [s])
    | none => (.error .outOfRange, sheets)

/-- The sheets after a history of requests that starts with one new sheet. -/
def served (g : Grid) (past : List Request) : List Sheet :=
  past.foldl (fun sheets request => (request.serve sheets).2) [⟨g, none⟩]

end Defs

variable {sheets : List Sheet} {g : Grid} {rows : List (List Operand)} {m n i : Nat} {s t : Sheet}
  {x : Edit (Option Rat)} {r : Except Fault (Option Rat)}

section Steps

/-- A sheet that is not there answers nothing. -/
theorem serve_none {request : Request} (h : sheets[request.target]? = none) :
    request.serve sheets = (.error .outOfRange, sheets) := by
  cases request <;> simp only [target] at h <;> simp only [serve, onSheet, h]

theorem onSheet_of_run (hi : sheets[i]? = some s) (hrun : x.run s = (r, t)) :
    onSheet sheets i x = (r, sheets.set i t) := by
  unfold onSheet
  rw [hi]
  dsimp only
  rw [hrun]

/-- A call that fails changes no sheet, and one that goes through changes one line of its sheet. -/
theorem serve_call (hm : 0 < m) (hs : s.Sound m n) (hi : sheets[i]? = some s) (c : Call) :
    (∃ fault, (call i c).serve sheets = (.error fault, sheets)) ∨
      ∃ t line, (call i c).serve sheets = (.ok none, sheets.set i t) ∧ t.Sound m n ∧ c.line? s.grid = some line ∧
        Grid.Redrawn m n line s.grid t.grid := by
  obtain ⟨fault, hrun⟩ | ⟨t, line, hrun, hsound, hline, hredrawn⟩ := c.redraws hs hm
  · refine Or.inl ⟨fault, (onSheet_of_run hi (run_bind_of_error hrun)).trans ?_⟩
    obtain ⟨hlt, rfl⟩ := List.getElem?_eq_some_iff.mp hi
    rw [List.set_getElem_self]
  · exact Or.inr ⟨t, line, onSheet_of_run hi (run_bind_of_ok hrun), hsound, hline, hredrawn⟩

theorem serve_ask (hm : 0 < m) (hs : s.Sound m n) (hi : sheets[i]? = some s) :
    ∃ t, (ask i).serve sheets = (.ok (if m = n then some (s.grid.matrix m).det else none), sheets.set i t) ∧
      t.Sound m n ∧ t.grid = s.grid := by
  obtain ⟨t, hrun, hsound, hgrid⟩ := hs.determinant_run hm
  exact ⟨t, onSheet_of_run hi hrun, hsound, hgrid⟩

theorem serve_clone (hi : sheets[i]? = some s) : (clone i).serve sheets = (.ok none, sheets ++ [s]) := by
  simp only [serve, hi]

theorem forall_mem_set {P : Sheet → Prop} (h : ∀ s ∈ sheets, P s) (ht : P t) (i : Nat) : ∀ s ∈ sheets.set i t, P s := by
  intro s hs
  rcases List.mem_or_eq_of_mem_set hs with hmem | rfl
  · exact h s hmem
  · exact ht

/-- One request keeps every sheet sound, and a request that fails keeps every sheet. -/
theorem sound_serve (hm : 0 < m) (h : ∀ s ∈ sheets, s.Sound m n) (request : Request) :
    (∀ s ∈ (request.serve sheets).2, s.Sound m n) ∧
      ∀ fault, (request.serve sheets).1 = .error fault → (request.serve sheets).2 = sheets := by
  cases hi : sheets[request.target]? with
  | none =>
    rw [serve_none hi]
    exact ⟨h, fun _ _ => rfl⟩
  | some s =>
    have hs := h s (List.mem_of_getElem? hi)
    cases request with
    | call i c =>
      obtain ⟨fault, hserve⟩ | ⟨t, _, hserve, hsound, -⟩ := serve_call (i := i) hm hs hi c
      · rw [hserve]
        exact ⟨h, fun _ _ => rfl⟩
      · rw [hserve]
        exact ⟨forall_mem_set h hsound i, fun _ => nofun⟩
    | ask i =>
      obtain ⟨t, hserve, hsound, -⟩ := serve_ask (i := i) hm hs hi
      rw [hserve]
      exact ⟨forall_mem_set h hsound i, fun _ => nofun⟩
    | clone i =>
      rw [serve_clone (i := i) hi]
      exact ⟨List.forall_mem_append.mpr ⟨h, List.forall_mem_singleton.mpr hs⟩, fun _ => nofun⟩

end Steps

section Histories

/-- Every history keeps every sheet sound. -/
theorem sound_served (hshaped : g.Shaped m n) (hm : 0 < m) (past : List Request) :
    ∀ s ∈ served g past, s.Sound m n := by
  refine List.foldlRecOn (motive := fun sheets : List Sheet => ∀ s ∈ sheets, s.Sound m n) past _ ?_ ?_
  · exact List.forall_mem_singleton.mpr ⟨hshaped, fun d hd => nomatch hd⟩
  · exact fun sheets hsheets request _ => (sound_serve hm hsheets request).1

/-- After every history of calls with any arguments, questions and copies, all sheets have the shape of the grid that
was read.  A request that fails next changes no sheet.  A call that goes through changes its own sheet only, and of that
no entry outside the line it is made for.  A question is answered with the determinant of the entries as they are, and a
copy is equal to its sheet. -/
theorem history_kept (hread : Grid.read rows = .ok g) (past : List Request) :
    (∀ s ∈ served g past, s.grid.Shaped g.rowCount g.columnCount) ∧
      (∀ next fault later, serve next (served g past) = (.error fault, later) → later = served g past) ∧
      (∀ i c answer later, serve (call i c) (served g past) = (.ok answer, later) →
        ∃ s t line, (served g past)[i]? = some s ∧ later = (served g past).set i t ∧ c.line? s.grid = some line ∧
          ∀ a b, ¬line.Has a b → t.grid.entry a b = s.grid.entry a b) ∧
      (∀ i s, (served g past)[i]? = some s → ∃ t, t.grid = s.grid ∧ serve (ask i) (served g past) =
        (.ok (if g.rowCount = g.columnCount then some (s.grid.matrix g.rowCount).det else none),
          (served g past).set i t)) ∧
      ∀ i s, (served g past)[i]? = some s → serve (clone i) (served g past) = (.ok none, served g past ++ [s]) := by
  obtain ⟨hshaped, hm, -⟩ := Grid.shaped_of_read hread
  have hsound := sound_served hshaped hm past
  refine ⟨fun s hs => (hsound s hs).shaped, ?_, ?_, ?_, ?_⟩
  · intro next fault later hserve
    have hkept := (sound_serve hm hsound next).2 fault
    rw [hserve] at hkept
    exact hkept rfl
  · intro i c answer later hserve
    cases hi : (served g past)[i]? with
    | none =>
      rw [serve_none hi] at hserve
      cases (Prod.mk.inj hserve).1
    | some s =>
      obtain ⟨_, hfailed⟩ | ⟨t, line, hok, -, hline, hredrawn⟩ :=
        serve_call hm (hsound s (List.mem_of_getElem? hi)) hi c
      · cases (Prod.mk.inj (hserve.symm.trans hfailed)).1
      · exact ⟨s, t, line, rfl, (Prod.mk.inj (hserve.symm.trans hok)).2, hline, hredrawn.entry_eq⟩
  · intro i s hi
    obtain ⟨t, hserve, -, hgrid⟩ := serve_ask hm (hsound s (List.mem_of_getElem? hi)) hi
    exact ⟨t, hgrid, hserve⟩
  · exact fun i s hi => serve_clone hi

/-- Two rows of two entries. -/
def sampleRows : List (List Operand) := [[.int 1, .int 2], [.int 3, .int 4]]

/-- A sheet is asked and copied; then its last row is set, and its copy is called with a row that is not there. -/
def sampleHistory : List Request :=
  [ask 0, clone 0, call 0 (.setRow (.ok (-1)) (.each [.int 0, .int 5])), call 1 (.divideToOne (.ok 7) (.ok 0))]

/-- After that the sheet answers 5, which is the determinant of its new entries; and a row that is too short for the
copy is refused and changes nothing. -/
theorem history_kept_sample :
    ∃ g, Grid.read sampleRows = .ok g ∧
      (served g sampleHistory).map (fun s => (s.grid.rows, s.known)) =
        [([[1, 2], [0, 5]], none), ([[1, 2], [3, 4]], some (-2))] ∧
      (∀ s ∈ served g sampleHistory, s.grid.Shaped 2 2) ∧
      (∃ s, (served g sampleHistory)[0]? = some s ∧ (s.grid.matrix 2).det = 5 ∧
        (serve (ask 0) (served g sampleHistory)).1 = .ok (some 5)) ∧
      ∃ fault, serve (call 1 (.setRow (.ok 0) (.each [.int 1]))) (served g sampleHistory) =
        (.error fault, served g sampleHistory) := by
  have hread : Grid.read sampleRows = .ok ⟨[[1, 2], [3, 4]]⟩ := rfl
  obtain ⟨hshaped, hfailed, -, hasked, -⟩ := history_kept hread sampleHistory
  refine ⟨_, hread, by decide +kernel, hshaped, ?_, ?_⟩
  · have hanswer : (serve (ask 0) (served ⟨[[1, 2], [3, 4]]⟩ sampleHistory)).1.toOption = some (some 5) := by
      decide +kernel
    obtain ⟨s, hs⟩ : ∃ s, (served ⟨[[1, 2], [3, 4]]⟩ sampleHistory)[0]? = some s := ⟨_, rfl⟩
    obtain ⟨t, -, hserve⟩ := hasked 0 s hs
    have hdet : (s.grid.matrix 2).det = 5 := by
      rw [hserve] at hanswer
      exact Option.some.inj (Option.some.inj hanswer)
    refine ⟨s, hs, hdet, ?_⟩
    rw [hserve]
    exact congrArg (fun d => Except.ok (some d)) hdet
  · have hrefused : ∃ fault later, serve (call 1 (.setRow (.ok 0) (.each [.int 1])))
        (served ⟨[[1, 2], [3, 4]]⟩ sampleHistory) = (.error fault, later) := ⟨_, _, rfl⟩
    obtain ⟨fault, later, hserve⟩ := hrefused
    exact ⟨fault, hfailed _ fault later hserve ▸ hserve⟩

end Histories

end Request

end ExactLP
