import ExactLP.Solution
import ExactLP.Proofs.Grid.Entries
import ExactLP.Proofs.Named
import ExactLP.Proofs.Runs

/-!
# Proofs.Solution — solutions read off a tableau

Reading a solution goes through on every shaped tableau with a column for each cost.  Its objective value is the
last entry of row 0 and the offset, and every name or label has what its last column says.

* `levelAt`: the basic value of a column.
* `place?`: the last column with a key; `find?_ofPairs_written`: what is read there.
* `ReadsOff`, `ofTableau_ok`: the reading as a whole.
-/

namespace ExactLP

/-- A fraction of a numerator and a denominator has their quotient for its value. -/
theorem Operand.value_fraction (r : Rat) : (Operand.fraction r.num r.den).value = .ok r :=
  congrArg Except.ok (Rat.mkRat_self r)

namespace Solution

variable {costs : List Rat} {columns : List Column} {g : Grid} {h w j : Nat}

/-! ## Basic values -/

section Levels

variable {basis : List (Option Int)} {v : Rat}

/-- The basic value that a row gives, row 0 none. -/
def levelOf (g : Grid) (p : Option Int × Nat) : List (Int × Rat) :=
  match p.1 with
  | some j => if p.2 = 0 then [] else [(j, g.lastEntry p.2)]
  | none => []

/-- The value that a basis gives a column. -/
def levelAt (g : Grid) (basis : List (Option Int)) (j : Nat) : Rat :=
  ((basis.zipIdx.map (levelOf g)).flatten.reverse.lookup (j : Int)).getD 0

theorem levels_ok (hs : g.Shaped h (w + 1)) (hlen : basis.length ≤ h) :
    Solution.levels g basis = .ok (basis.zipIdx.map (levelOf g)).flatten.reverse := by
  unfold Solution.levels
  rw [mapM_ok (g := levelOf g)]
  · rfl
  · rintro ⟨index, row⟩ hmem
    have hrow : row < basis.length := (List.getElem?_eq_some_iff.mp (List.mem_zipIdx_iff_getElem?.mp hmem)).1
    cases index with
    | none => rfl
    | some j =>
      by_cases hz : row = 0
      · simp only [levelOf, hz, if_true]
        rfl
      · have hget := hs.get_last_eq (show row < h by omega) (Nat.succ_pos w)
        simp only [levelOf, hz, if_false, hget]
        rfl

theorem mem_levels {b : Int} : (b, v) ∈ (basis.zipIdx.map (levelOf g)).flatten.reverse ↔
    ∃ i, i ≠ 0 ∧ basis[i]? = some (some b) ∧ v = g.lastEntry i := by
  rw [List.mem_reverse, List.mem_flatten]
  constructor
  · rintro ⟨own, hown, hmem⟩
    obtain ⟨⟨index, i⟩, hi, rfl⟩ := List.mem_map.mp hown
    have hget := List.mem_zipIdx_iff_getElem?.mp hi
    cases index with
    | none => exact absurd hmem List.not_mem_nil
    | some b' =>
      by_cases hz : i = 0
      · simp [levelOf, hz] at hmem
      · simp only [levelOf, hz, if_false, List.mem_singleton, Prod.mk.injEq] at hmem
        exact ⟨i, hz, hmem.1 ▸ hget, hmem.2⟩
  · rintro ⟨i, hz, hget, rfl⟩
    refine ⟨levelOf g (some b, i), List.mem_map.mpr ⟨_, List.mem_zipIdx_iff_getElem?.mpr hget, rfl⟩, ?_⟩
    simp [levelOf, hz]

/-- A column that one row holds has the right side of that row. -/
theorem levelAt_eq_of_row {i : Nat} (hi : i ≠ 0) (hget : basis[i]? = some (some (j : Int)))
    (huniq : ∀ k, k ≠ 0 → basis[k]? = some (some (j : Int)) → k = i) :
    levelAt g basis j = g.lastEntry i := by
  unfold levelAt
  cases h : (basis.zipIdx.map (levelOf g)).flatten.reverse.lookup (j : Int) with
  | none =>
    have hne := List.lookup_eq_none_iff.mp h _ (mem_levels.mpr ⟨i, hi, hget, rfl⟩)
    simp at hne
  | some v =>
    obtain ⟨l₁, l₂, heq, -⟩ := List.lookup_eq_some_iff.mp h
    obtain ⟨k, hk, hget', rfl⟩ := mem_levels.mp (heq ▸ by simp :
      ((j : Int), v) ∈ (basis.zipIdx.map (levelOf g)).flatten.reverse)
    rw [huniq k hk hget']
    rfl

/-- A column that no row holds is zero. -/
theorem levelAt_eq_zero (hno : ∀ i, i ≠ 0 → basis[i]? ≠ some (some (j : Int))) : levelAt g basis j = 0 := by
  unfold levelAt
  rw [List.lookup_eq_none_iff.mpr]
  · rfl
  · rintro ⟨b, v⟩ hmem
    obtain ⟨i, hi, hget, -⟩ := mem_levels.mp hmem
    rw [bne_iff_ne]
    rintro rfl
    exact hno i hi hget

end Levels

/-! ## Keys of columns -/

section Keys

/-- The label under which a column is read as an auxiliary of a row. -/
def label? (c : Column) : Option (Option String) :=
  if c.internal then none
  else match c.role with
    | .surplus label | .excess label | .pseudo label => some label
    | _ => none

/-- The variable of which a column is the part that is added. -/
def added? (c : Column) : Option (Option String) :=
  if c.internal then none
  else match c.role with
    | .positivePart x => some x
    | _ => none

/-- The variable of which a column is the part that is subtracted. -/
def subtracted? (c : Column) : Option (Option String) :=
  if c.internal then none
  else match c.role with
    | .negativePart x => some x
    | _ => none

/-- The name of a column that is a variable of its own. -/
def own? (c : Column) : Option (Option String) :=
  if c.internal then none
  else match c.role with
    | .decision | .condition => some (some c.name)
    | _ => none

/-- What columns write under their keys. -/
def written {β : Type} (key : Column → Option (Option String)) (f : Nat → β) (l : List (Column × Nat)) :
    List (Option String × β) :=
  l.filterMap fun p => (key p.1).map fun k => (k, f p.2)

/-- The position of the last column with a key. -/
def place? (key : Column → Option (Option String)) (columns : List Column) (k : Option String) : Option Nat :=
  (columns.zipIdx.reverse.find? fun p => decide (key p.1 = some k)).map Prod.snd

variable {key : Column → Option (Option String)} {k : Option String} {c : Column}

theorem written_append {β : Type} (f : Nat → β) (l l' : List (Column × Nat)) :
    written key f (l ++ l') = written key f l ++ written key f l' :=
  List.filterMap_append

/-- After the columns are read, a key has what its last column wrote. -/
theorem find?_ofPairs_written {β : Type} (key : Column → Option (Option String)) (f : Nat → β)
    (columns : List Column) (k : Option String) :
    (Keyed.ofPairs (written key f columns.zipIdx)).find? k = (place? key columns k).map f := by
  rw [Keyed.ofPairs_eq_writes, Keyed.find?_writes, written, ← List.filterMap_reverse, List.find?_filterMap, place?]
  have hkey : (fun p : Column × Nat => Option.any (fun q : Option String × β => decide (q.1 = k))
      ((key p.1).map fun k => (k, f p.2))) = fun p => decide (key p.1 = some k) := by
    funext p
    cases key p.1 <;> simp
  rw [hkey]
  cases h : columns.zipIdx.reverse.find? fun p => decide (key p.1 = some k) with
  | none => rfl
  | some p =>
    have hp : key p.1 = some k := by simpa using List.find?_some h
    simp [hp, Keyed.find?]

/-- Which keys are written does not depend on what is written. -/
theorem map_fst_written {β γ : Type} (f : Nat → β) (g : Nat → γ) {l : List (Column × Nat)} :
    (written key f l).map Prod.fst = (written key g l).map Prod.fst := by
  unfold written
  rw [List.map_filterMap, List.map_filterMap]
  refine List.filterMap_congr fun p _ => ?_
  cases key p.1 <;> rfl

theorem place?_eq_none_iff : place? key columns k = none ↔ ∀ c ∈ columns, key c ≠ some k := by
  rw [place?, Option.map_eq_none_iff, List.find?_eq_none]
  constructor
  · intro h c hc
    obtain ⟨j, hj⟩ := List.mem_iff_getElem?.mp hc
    have hno := h (c, j) (List.mem_reverse.mpr (List.mem_zipIdx_iff_getElem?.mpr hj))
    simpa using hno
  · rintro h ⟨c, j⟩ hmem
    have hj := List.mem_zipIdx_iff_getElem?.mp (List.mem_reverse.mp hmem)
    simpa using h c (List.mem_of_getElem? hj)

/-- The keys that some columns write. -/
theorem mem_names_written {β : Type} (f : Nat → β) (columns : List Column) (k : Option String) :
    k ∈ (Keyed.ofPairs (written key f columns.zipIdx)).names ↔ ∃ c ∈ columns, key c = some k := by
  rw [← not_iff_not, ← Keyed.find?_eq_none_iff, find?_ofPairs_written, Option.map_eq_none_iff,
    place?_eq_none_iff]
  simp

theorem place?_spec (h : place? key columns k = some j) : ∃ c, columns[j]? = some c ∧ key c = some k := by
  obtain ⟨⟨c, i⟩, hfind, rfl⟩ := Option.map_eq_some_iff.mp h
  have hmem := List.mem_reverse.mp (List.mem_of_find?_eq_some hfind)
  exact ⟨c, List.mem_zipIdx_iff_getElem?.mp hmem, by simpa using List.find?_some hfind⟩

/-- No column with a key comes behind the place where the key is read. -/
theorem le_place? {i : Nat} (h : place? key columns k = some i) (hj : columns[j]? = some c) (hk : key c = some k) :
    j ≤ i := by
  obtain ⟨⟨c', i⟩, hfind, rfl⟩ := Option.map_eq_some_iff.mp h
  obtain ⟨-, before, after, heq, hbefore⟩ := List.find?_eq_some_iff_append.mp hfind
  have hdescend : (before ++ (c', i) :: after).Pairwise fun p q => q.2 < p.2 := by
    rw [← heq, List.pairwise_reverse, ← List.pairwise_map (f := Prod.snd) (R := (· < ·)), List.zipIdx_map_snd]
    exact List.pairwise_lt_range'
  have hmem : (c, j) ∈ before ++ (c', i) :: after := by
    rw [← heq, List.mem_reverse]
    exact List.mem_zipIdx_iff_getElem?.mpr hj
  rcases List.mem_append.mp hmem with hbef | hrest
  · have hno := hbefore _ hbef
    simp [hk] at hno
  · rcases List.mem_cons.mp hrest with hsame | hafter
    · exact (congrArg Prod.snd hsame).le
    · exact ((List.pairwise_cons.mp (List.pairwise_append.mp hdescend).2.1).1 _ hafter).le

/-- A key is read at its last column. -/
theorem place?_eq_some (hj : columns[j]? = some c) (hk : key c = some k)
    (hlast : ∀ i c', columns[i]? = some c' → key c' = some k → i ≤ j) : place? key columns k = some j := by
  cases h : place? key columns k with
  | none => exact absurd hk (place?_eq_none_iff.mp h c (List.mem_of_getElem? hj))
  | some i =>
    obtain ⟨c', hi, hk'⟩ := place?_spec h
    rw [le_antisymm (hlast i c' hi hk') (le_place? h hj hk)]

end Keys

/-! ## Reading columns -/

namespace Reading

/-- What reading some columns adds to what was read before. -/
structure Extends (level cost : Nat → Rat) (l : List (Column × Nat)) (r r' : Reading) : Prop where
  objective_eq : r'.solution.objective = r.solution.objective
  values_eq : r'.solution.values = Keyed.writes (written own? level l) r.solution.values
  reducedCost_eq : r'.solution.reducedCost = Keyed.writes (written own? cost l) r.solution.reducedCost
  slacks_eq : r'.solution.slacks = Keyed.writes (written label? level l) r.solution.slacks
  dual_eq : r'.solution.dual = Keyed.writes (written label? cost l) r.solution.dual
  positive_eq : r'.positive = Keyed.writes (written added? (fun j => (level j, cost j)) l) r.positive
  negative_eq : r'.negative = Keyed.writes (written subtracted? level l) r.negative

variable {level cost : Nat → Rat} {l l' : List (Column × Nat)} {r r' r'' : Reading}

theorem Extends.refl (level cost : Nat → Rat) (r : Reading) : r.Extends level cost [] r :=
  ⟨rfl, rfl, rfl, rfl, rfl, rfl, rfl⟩

theorem Extends.trans (h : r.Extends level cost l r') (h' : r'.Extends level cost l' r'') :
    r.Extends level cost (l ++ l') r'' where
  objective_eq := h'.objective_eq.trans h.objective_eq
  values_eq := by rw [h'.values_eq, h.values_eq, written_append, Keyed.writes_append]
  reducedCost_eq := by rw [h'.reducedCost_eq, h.reducedCost_eq, written_append, Keyed.writes_append]
  slacks_eq := by rw [h'.slacks_eq, h.slacks_eq, written_append, Keyed.writes_append]
  dual_eq := by rw [h'.dual_eq, h.dual_eq, written_append, Keyed.writes_append]
  positive_eq := by rw [h'.positive_eq, h.positive_eq, written_append, Keyed.writes_append]
  negative_eq := by rw [h'.negative_eq, h.negative_eq, written_append, Keyed.writes_append]

/-- Reading a column goes through and writes under its key. -/
theorem column_ok (r : Reading) (levels : List (Int × Rat)) (c : Column) (hj : j < costs.length) :
    ∃ r', r.column levels costs c j = .ok r' ∧
      r.Extends (fun j => (levels.lookup (j : Int)).getD 0) (fun j => costs.getD j 0) [(c, j)] r' := by
  have hcost : costAt costs j = .ok (costs.getD j 0) := by
    unfold costAt
    rw [List.getD_eq_getElem _ _ hj, List.getElem?_eq_getElem hj]
    rfl
  obtain ⟨name, role, internal, eliminated⟩ := c
  unfold column
  simp only [hcost]
  cases internal with
  | true => exact ⟨r, rfl, rfl, rfl, rfl, rfl, rfl, rfl, rfl⟩
  | false => cases role <;> exact ⟨_, rfl, rfl, rfl, rfl, rfl, rfl, rfl, rfl⟩

theorem foldlM_column_ok (levels : List (Int × Rat)) (hl : ∀ p ∈ l, p.2 < costs.length) (r : Reading) :
    ∃ r', l.foldlM (fun r p => r.column levels costs p.1 p.2) r = .ok r' ∧
      r.Extends (fun j => (levels.lookup (j : Int)).getD 0) (fun j => costs.getD j 0) l r' := by
  induction l generalizing r with
  | nil => exact ⟨r, rfl, .refl _ _ _⟩
  | cons p rest ih =>
    obtain ⟨r₁, hcol, h₁⟩ := r.column_ok levels p.1 (hl p List.mem_cons_self)
    obtain ⟨r₂, hrest, h₂⟩ := ih (fun q hq => hl q (List.mem_cons_of_mem _ hq)) r₁
    refine ⟨r₂, ?_, h₁.trans h₂⟩
    rw [List.foldlM_cons, hcol]
    exact hrest

/-- The value of a split variable: its added part less its subtracted part. -/
def joinedValue (r : Reading) (name : Option String) : Rat :=
  ((r.positive.find? name).getD (0, 0)).1 - (r.negative.find? name).getD 0

/-- The cost of a split variable: that of its added part. -/
def joinedCost (r : Reading) (name : Option String) : Rat := ((r.positive.find? name).getD (0, 0)).2

/-- Putting the parts of split variables together writes their values and costs. -/
theorem joined_eq (r : Reading) : r.joined =
    { r.solution with
      values := Keyed.writes (r.splitNames.map fun name => (name, r.joinedValue name)) r.solution.values
      reducedCost := Keyed.writes (r.splitNames.map fun name => (name, r.joinedCost name)) r.solution.reducedCost } := by
  unfold joined
  generalize r.solution = s
  induction r.splitNames generalizing s with
  | nil => rfl
  | cons name rest ih => exact ih _

theorem mem_splitNames {r : Reading} {name : Option String} :
    name ∈ r.splitNames ↔ name ∈ r.positive.names ∨ name ∈ r.negative.names := by
  rw [splitNames, List.mem_append, List.mem_filter]
  by_cases h : name ∈ r.positive.names <;> simp [h]

end Reading

/-- The reduced cost of a name; a name that does not occur has cost zero. -/
def cost (s : Solution) (name : String) : Rat := (s.reducedCost.find? (some name)).getD 0

/-- A part of the variable has a column. -/
def HasPart (columns : List Column) (x : String) : Prop :=
  ∃ c ∈ columns, added? c = some (some x) ∨ subtracted? c = some (some x)

/-- What a solution says of its columns, of which `level` gives the values and `cost` the costs. -/
structure ReadsOff (sol : Solution) (columns : List Column) (level cost : Nat → Rat) : Prop where
  slacks_eq : ∀ k, sol.slacks.find? k = (place? label? columns k).map level
  dual_eq : ∀ k, sol.dual.find? k = (place? label? columns k).map cost
  split_eq : ∀ x, HasPart columns x → sol.value x = ((place? added? columns (some x)).map level).getD 0 -
    ((place? subtracted? columns (some x)).map level).getD 0
  split_cost_eq : ∀ x, HasPart columns x → sol.cost x = ((place? added? columns (some x)).map cost).getD 0
  own_eq : ∀ x, ¬HasPart columns x → sol.value x = ((place? own? columns (some x)).map level).getD 0
  own_cost_eq : ∀ x, ¬HasPart columns x → sol.cost x = ((place? own? columns (some x)).map cost).getD 0
  nodup_slacks : sol.slacks.names.Nodup
  names_dual : sol.dual.names = sol.slacks.names
  names_reducedCost : sol.reducedCost.names = sol.values.names

/-- Reading all columns from nothing. -/
theorem Reading.Extends.readsOff {level cost : Nat → Rat} {objective : Rat} {r : Reading}
    (h : ({ solution := { objective } } : Reading).Extends level cost columns.zipIdx r) :
    r.joined.ReadsOff columns level cost := by
  have hsplit : ∀ x, some x ∈ r.splitNames ↔ HasPart columns x := by
    intro x
    rw [mem_splitNames, h.positive_eq, h.negative_eq, HasPart]
    refine (or_congr (mem_names_written _ columns (some x)) (mem_names_written _ columns (some x))).trans ?_
    simp only [and_or_left, exists_or]
  have hpositive : ∀ x, r.positive.find? x = (place? added? columns x).map fun j => (level j, cost j) := by
    rw [h.positive_eq]
    exact find?_ofPairs_written added? _ columns
  have hnegative : ∀ x, r.negative.find? x = (place? subtracted? columns x).map level := by
    rw [h.negative_eq]
    exact find?_ofPairs_written subtracted? level columns
  have hvalues : r.joined.values =
      Keyed.writes (r.splitNames.map fun name => (name, r.joinedValue name)) r.solution.values := by rw [joined_eq]
  have hcosts : r.joined.reducedCost =
      Keyed.writes (r.splitNames.map fun name => (name, r.joinedCost name)) r.solution.reducedCost := by rw [joined_eq]
  have hslacks : r.joined.slacks = Keyed.ofPairs (written label? level columns.zipIdx) := by
    rw [joined_eq]
    exact h.slacks_eq
  have hdual : r.joined.dual = Keyed.ofPairs (written label? cost columns.zipIdx) := by
    rw [joined_eq]
    exact h.dual_eq
  refine ⟨fun k => ?_, fun k => ?_, fun x hx => ?_, fun x hx => ?_, fun x hx => ?_, fun x hx => ?_, ?_, ?_, ?_⟩
  · rw [hslacks, find?_ofPairs_written]
  · rw [hdual, find?_ofPairs_written]
  · rw [value, hvalues, Keyed.find?_writes_map_of_mem ((hsplit x).mpr hx), joinedValue, hpositive, hnegative]
    cases place? added? columns (some x) <;> rfl
  · rw [Solution.cost, hcosts, Keyed.find?_writes_map_of_mem ((hsplit x).mpr hx), joinedCost, hpositive]
    cases place? added? columns (some x) <;> rfl
  · rw [value, hvalues, Keyed.find?_writes_map_of_not_mem fun hmem => hx ((hsplit x).mp hmem), h.values_eq]
    exact congrArg (Option.getD · 0) (find?_ofPairs_written own? level columns (some x))
  · rw [Solution.cost, hcosts, Keyed.find?_writes_map_of_not_mem fun hmem => hx ((hsplit x).mp hmem),
      h.reducedCost_eq]
    exact congrArg (Option.getD · 0) (find?_ofPairs_written own? cost columns (some x))
  · have hnil : (Keyed.names ([] : Keyed (Option String) Rat)).Nodup := List.nodup_nil
    rw [hslacks]
    exact Keyed.nodup_writes hnil _
  · rw [hdual, hslacks]
    exact Keyed.names_writes_congr (map_fst_written _ _) rfl
  · rw [hcosts, hvalues, h.reducedCost_eq, h.values_eq]
    refine Keyed.names_writes_congr ?_ (Keyed.names_writes_congr (map_fst_written _ _) rfl)
    rw [List.map_map, List.map_map]
    rfl

theorem assemble_ok (levels : List (Int × Rat)) (hlen : columns.length ≤ costs.length) (offset : Rat) :
    ∃ sol, assemble levels costs columns offset = .ok sol ∧ sol.objective = costs.getLastD 0 + offset ∧
      sol.ReadsOff columns (fun j => (levels.lookup (j : Int)).getD 0) fun j => costs.getD j 0 := by
  set start : Reading := { solution := { objective := costs.getLastD 0 + offset } } with hstart
  have hl : ∀ p ∈ columns.zipIdx, p.2 < costs.length := by
    rintro ⟨c, j⟩ hmem
    exact (List.getElem?_eq_some_iff.mp (List.mem_zipIdx_iff_getElem?.mp hmem)).1.trans_le hlen
  obtain ⟨r, hfold, hextends⟩ := Reading.foldlM_column_ok levels hl start
  refine ⟨r.joined, congrArg (fun x : Except Fault Reading => x >>= fun r => pure r.joined) hfold, ?_,
    hextends.readsOff⟩
  rw [r.joined_eq]
  exact hextends.objective_eq

/-- Reading a solution off a shaped tableau goes through; its objective value is the last entry of row 0 and
the offset. -/
theorem ofTableau_ok (hs : g.Shaped (h + 1) (w + 1)) (hcol : columns.length = w)
    {basis : List (Option Int)} (hlen : basis.length = h + 1) (offset : Rat) :
    ∃ sol, ofTableau g columns basis (.fraction offset.num offset.den) = .ok sol ∧
      sol.objective = g.entry 0 w + offset ∧ sol.ReadsOff columns (levelAt g basis) (g.entry 0) := by
  have hline := hs.length_line (Nat.succ_pos h)
  have hwidth : columns.length ≤ (g.line 0).length := by omega
  obtain ⟨sol, hsol, hobj, hreads⟩ :=
    assemble_ok (basis.zipIdx.map (levelOf g)).flatten.reverse hwidth offset
  refine ⟨sol, ?_, ?_, hreads⟩
  · unfold ofTableau
    rw [levels_ok hs hlen.le, Operand.value_fraction]
    exact hsol
  · rw [hobj, Grid.entry, List.getLastD_eq_getLast?, List.getLast?_eq_getElem?, hline,
      Nat.add_sub_cancel, List.getD_eq_getElem?_getD]

end Solution

end ExactLP
