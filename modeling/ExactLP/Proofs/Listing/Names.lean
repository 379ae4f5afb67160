import ExactLP.Listing
import ExactLP.Proofs.Standard.Parts
import Mathlib.Data.Set.Function

/-!
# Proofs.Listing.Names — which variables a listing keeps apart

A listing writes the condition binary `_y0` as `__y0`.  No caller's variable is called `_y0`, but one may be called
`__y0`.  As long as none is, the names of all variables stay apart and every row keeps its terms; where one is, two
variables share a name, and a row over both loses a term.

* `injOn_listedName_iff`: when the listed names are apart.
* `listedTerms_eq`: a form whose names stay apart keeps its terms.
* `apart_iff`: when no name stands for two variables.
* `lines_apart`: the lines of a problem, and what they keep.
* `exists_clash`: a problem whose listing loses a term.
-/

namespace ExactLP

namespace Listing

variable {p : Problem} {form : StandardForm} {condition names : List String} {terms : Terms} {x y c name : String}

/-! ## Definitions -/

section Defs

/-- The names that occur in the rows, in the objective and in the declarations of a listing. -/
def occurring (p : Problem) (form : StandardForm) : List String :=
  form.rows.flatMap Row.names ++ p.objective.nonzero.names ++
    (p.binary ++ form.condition ++ p.integer ++ p.unrestricted)

/-- The variable `x` stands under a name somewhere in the listing. -/
inductive Printed (p : Problem) (form : StandardForm) : String → String → Prop
  | objective {x : String} : x ∈ p.objective.nonzero.names → Printed p form x x
  | row {r : Row} {x : String} : r ∈ form.rows → x ∈ r.names → Printed p form x (listedName form.condition x)
  | binary {x : String} : x ∈ p.binary ++ form.condition → Printed p form x (listedName form.condition x)
  | integer {x : String} : x ∈ p.integer → x ∉ p.binary ++ form.condition → Printed p form x x
  | unrestricted {x : String} : x ∈ p.unrestricted → Printed p form x x

/-- No name that occurs is the listed name of a condition. -/
def NoClash (p : Problem) (form : StandardForm) : Prop :=
  ∀ c ∈ form.condition, listedName form.condition c ∉ occurring p form

instance (p : Problem) (form : StandardForm) : Decidable (NoClash p form) :=
  inferInstanceAs (Decidable (∀ c ∈ form.condition, listedName form.condition c ∉ occurring p form))

end Defs

/-! ## Listed names -/

section Names

theorem listedName_of_mem (h : c ∈ condition) :
    listedName condition c = stem ++ String.ofList (c.toList.drop conditionStem.length) :=
  if_pos (List.contains_iff_mem.mpr h)

theorem listedName_of_not_mem (h : x ∉ condition) : listedName condition x = x :=
  if_neg fun hc => h (List.contains_iff_mem.mp hc)

/-- No name that starts like a listed condition is reserved. -/
theorem not_reserved_stem (s : String) : ¬Reserved (stem ++ s) := by
  unfold Reserved stem conditionStem
  rw [String.toList_append]
  simp [List.isPrefixOf]

theorem conditionStem_append_drop (h : Reserved c) :
    conditionStem ++ String.ofList (c.toList.drop conditionStem.length) = c := by
  obtain ⟨rest, hrest⟩ := List.isPrefixOf_iff_prefix.mp h
  apply String.toList_injective
  rw [String.toList_append, String.toList_ofList, ← hrest, ← String.length_toList, List.drop_left]

/-- Two conditions are listed under two names. -/
theorem eq_of_listedName_eq (hx : x ∈ condition) (hy : y ∈ condition) (hresx : Reserved x) (hresy : Reserved y)
    (h : listedName condition x = listedName condition y) : x = y := by
  rw [listedName_of_mem hx, listedName_of_mem hy, String.append_right_inj] at h
  rw [← conditionStem_append_drop hresx, h, conditionStem_append_drop hresy]

/-- The listed name of a condition is no condition. -/
theorem not_mem_of_listed (hres : ∀ c ∈ condition, Reserved c) (hc : c ∈ condition) :
    listedName condition c ∉ condition := by
  rw [listedName_of_mem hc]
  exact fun hmem => not_reserved_stem _ (hres _ hmem)

/-- Names that hold the conditions stay apart exactly when none of them is the listed name of a condition. -/
theorem injOn_listedName_iff (hres : ∀ c ∈ condition, Reserved c) (hsub : ∀ c ∈ condition, c ∈ names) :
    Set.InjOn (listedName condition) {x | x ∈ names} ↔ ∀ c ∈ condition, listedName condition c ∉ names := by
  constructor
  · intro hinj c hc hmem
    have hlisted := not_mem_of_listed hres hc
    have heq := hinj (hsub c hc) hmem (listedName_of_not_mem hlisted).symm
    exact hlisted (heq ▸ hc)
  · intro hclear x hx y hy h
    by_cases hxc : x ∈ condition
    · by_cases hyc : y ∈ condition
      · exact eq_of_listedName_eq hxc hyc (hres x hxc) (hres y hyc) h
      · rw [listedName_of_not_mem hyc] at h
        exact absurd (h ▸ hy) (hclear x hxc)
    · rw [listedName_of_not_mem hxc] at h
      by_cases hyc : y ∈ condition
      · exact absurd (h ▸ hx) (hclear y hyc)
      · exact h.trans (listedName_of_not_mem hyc)

/-- A form whose names stay apart keeps its terms, in order. -/
theorem listedTerms_eq (hnodup : terms.names.Nodup) (hinj : Set.InjOn (listedName condition) {x | x ∈ terms.names}) :
    listedTerms condition terms = terms.map fun p => (listedName condition p.1, p.2) := by
  have hnames : Keyed.names (terms.map fun p => (listedName condition p.1, p.2)) =
      terms.names.map (listedName condition) := by
    simp [Keyed.names]
  refine Keyed.foldl_put_of_nodup [] ?_
  rw [List.nil_append, hnames]
  exact hnodup.map_on fun x hx y hy h => hinj hx hy h

end Names

/-! ## Variables under their names -/

section Variables

theorem Printed.spec (h : Printed p form x y) :
    x ∈ occurring p form ∧ (y = x ∨ y = listedName form.condition x) := by
  unfold occurring
  cases h with
  | objective hx => exact ⟨by simp [hx], Or.inl rfl⟩
  | row hr hx => exact ⟨by simpa using Or.inl ⟨_, hr, hx⟩, Or.inr rfl⟩
  | binary hx =>
    exact ⟨List.mem_append_right _ (List.mem_append_left _ (List.mem_append_left _ hx)), Or.inr rfl⟩
  | integer hx => exact ⟨by simp [hx], Or.inl rfl⟩
  | unrestricted hx => exact ⟨by simp [hx], Or.inl rfl⟩

/-- A variable that is no condition stands under its own name. -/
theorem printed_of_mem (hx : x ∈ occurring p form) (hnot : x ∉ form.condition) : Printed p form x x := by
  have hown : Printed p form x (listedName form.condition x) → Printed p form x x := by
    rw [listedName_of_not_mem hnot]
    exact id
  unfold occurring at hx
  simp only [List.mem_append, List.mem_flatMap] at hx
  obtain (⟨r, hr, hx⟩ | hx) | ((hx | hx) | hx) | hx := hx
  · exact hown (.row hr hx)
  · exact .objective hx
  · exact hown (.binary (List.mem_append_left _ hx))
  · exact absurd hx hnot
  · by_cases hbinary : x ∈ p.binary ++ form.condition
    · exact hown (.binary hbinary)
    · exact .integer hx hbinary
  · exact .unrestricted hx

theorem condition_occurs (hc : c ∈ form.condition) : c ∈ occurring p form := by
  simp [occurring, hc]

/-- No name stands for two variables exactly when no listed name of a condition occurs. -/
theorem apart_iff (hres : ∀ c ∈ form.condition, Reserved c) :
    (∀ x y name, Printed p form x name → Printed p form y name → x = y) ↔ NoClash p form := by
  constructor
  · intro hapart c hc hmem
    have hlisted := not_mem_of_listed hres hc
    have heq := hapart c _ _ (.binary (List.mem_append_right _ hc)) (printed_of_mem hmem hlisted)
    exact hlisted (heq ▸ hc)
  · intro hclear x y name hx hy
    have hinj := (injOn_listedName_iff hres fun c hc => condition_occurs hc).mpr hclear
    have hraw : ∀ {x y}, x ∈ occurring p form → y ∈ occurring p form → x = listedName form.condition y → x = y := by
      intro x y hx hy h
      by_cases hyc : y ∈ form.condition
      · exact absurd (h ▸ hx) (hclear y hyc)
      · exact h.trans (listedName_of_not_mem hyc)
    obtain ⟨hxmem, rfl | rfl⟩ := hx.spec
    · obtain ⟨hymem, h | h⟩ := hy.spec
      · exact h
      · exact hraw hxmem hymem h
    · obtain ⟨hymem, h | h⟩ := hy.spec
      · exact (hraw hymem hxmem h.symm).symm
      · exact hinj hxmem hymem h

end Variables

/-! ## The lines -/

section Lines

/-- The line of a row over the listed names. -/
def IsLineOf (condition : List String) (r : Row) (line : String) : Prop :=
  ∃ lhs rhs, (listedTerms condition r.terms).written = .ok lhs ∧ numberText r.rhs = .ok rhs ∧
    line = s!"{lhs} {comparatorText r.cmp} {rhs}"

theorem isLineOf {r : Row} {line : String} (h : (liftM (rowLine condition r) : Except Fault String) = .ok line) :
    IsLineOf condition r line := by
  obtain ⟨lhs, hlhs, h⟩ := ok_of_bind (ok_of_lift h)
  obtain ⟨rhs, hrhs, h⟩ := ok_of_bind h
  exact ⟨lhs, rhs, hlhs, hrhs, (Except.ok.inj h).symm⟩

/-- The lines of a problem, from its standard form without splitting. -/
theorem of_lines {ls : List String} (h : lines p = .ok ls) :
    ∃ form objective rowLines, p.standardForm false = .ok form ∧ p.objective.written = .ok objective ∧
      List.Forall₂ (IsLineOf form.condition) form.rows rowLines ∧
      ls = s!"{goalWord p.goal} {objective}" :: "SUBJECT TO" :: rowLines ++ "END" :: declarations p form.condition := by
  obtain ⟨form, hform, h⟩ := ok_of_bind h
  obtain ⟨objective, hobjective, h⟩ := ok_of_bind h
  obtain ⟨rowLines, hrows, h⟩ := ok_of_bind h
  exact ⟨form, objective, rowLines, hform, ok_of_lift hobjective, (forall₂_of_mapM hrows).imp fun _ _ => isLineOf,
    (Except.ok.inj h).symm⟩

/-- The constraint lines of a problem are those of the rows of its standard form, over the listed names.  These names
stay apart, and no name stands for two variables, exactly when none that occurs is the listed name of a condition; and
then every line has all terms of its row. -/
theorem lines_apart {ls : List String} (hp : p.Keyed) (h : lines p = .ok ls) :
    ∃ form objective rowLines, p.standardForm false = .ok form ∧ p.objective.written = .ok objective ∧
      ls = s!"{goalWord p.goal} {objective}" :: "SUBJECT TO" :: rowLines ++ "END" :: declarations p form.condition ∧
      List.Forall₂ (IsLineOf form.condition) form.rows rowLines ∧
      (Set.InjOn (listedName form.condition) {x | x ∈ occurring p form} ↔ NoClash p form) ∧
      ((∀ x y name, Printed p form x name → Printed p form y name → x = y) ↔ NoClash p form) ∧
      (NoClash p form → ∀ r ∈ form.rows,
        listedTerms form.condition r.terms = r.terms.map fun t => (listedName form.condition t.1, t.2)) := by
  obtain ⟨form, objective, rowLines, hform, hobjective, hlines, hls⟩ := of_lines h
  obtain ⟨derived, hmade⟩ := exists_madeOf hform
  obtain ⟨hrows, hres⟩ := hmade.tidy hp.constraints
  have hinj := injOn_listedName_iff hres fun c hc => condition_occurs (p := p) hc
  refine ⟨form, objective, rowLines, hform, hobjective, hls, hlines, hinj, apart_iff hres, fun hclear r hr => ?_⟩
  refine listedTerms_eq (hrows r hr) ((hinj.mpr hclear).mono fun x hx => ?_)
  exact List.mem_append_left _ (List.mem_append_left _ (List.mem_flatMap.mpr ⟨r, hr, hx⟩))

/-- Two numbers below 10, of which the second is 0 when the first one, a binary, is not. -/
def sampleProblem (name : String) : Problem where
  goal := .maximize
  objective := [(name, 1), ("z", 1)]
  constraints := [.plain ⟨[("z", 1)], .le, 10, none⟩, .implies ⟨[(name, 1)], .gt, 0, none⟩ ⟨[("z", 1)], .le, 0, none⟩]
  binary := [name]

/-- Its rows are compiled to these. -/
def compiledSample (name : String) : StandardForm where
  rows := [⟨[("z", 1)], .le, 10, none⟩, ⟨[("z", 1), ("_y0", -10)], .le, 0, none⟩,
    ⟨[(name, 1), ("_y0", 10)], .le, 10, none⟩]
  condition := ["_y0"]

theorem keyed_sampleProblem (h : name ≠ "z") : (sampleProblem name).Keyed where
  objective := by simp [sampleProblem, Keyed.names, h]
  constraints := by simp [sampleProblem, Constraint.Keyed, Constraint.operands, Row.names, Keyed.names]

/-- The condition `_y0` of the implication is listed as `__y0`, which is not the name of the binary `__y1`. -/
theorem lines_apart_sample :
    ∃ form ls, (sampleProblem "__y1").standardForm false = .ok form ∧ lines (sampleProblem "__y1") = .ok ls ∧
      form.condition = ["_y0"] ∧ listedName form.condition "_y0" = "__y0" ∧
      Set.InjOn (listedName form.condition) {x | x ∈ occurring (sampleProblem "__y1") form} ∧
      ∀ r ∈ form.rows, (listedTerms form.condition r.terms).length = r.terms.length := by
  have hlines : lines (sampleProblem "__y1") = .ok ["MAX __y1 + z", "SUBJECT TO", "z < 10", "z - 10__y0 < 0",
      "__y1 + 10__y0 < 10", "END", "INT __y1", "INT __y0"] := by decide +kernel
  have hmade : (sampleProblem "__y1").standardForm false = .ok (compiledSample "__y1") := by decide +kernel
  obtain ⟨form, -, -, hform, -, -, -, hinj, -, hterms⟩ := lines_apart (keyed_sampleProblem (by decide)) hlines
  obtain rfl := Except.ok.inj (hmade.symm.trans hform)
  have hclear : NoClash (sampleProblem "__y1") (compiledSample "__y1") := by decide
  refine ⟨_, _, hmade, hlines, rfl, by decide, hinj.mpr hclear, fun r hr => ?_⟩
  rw [hterms hclear r hr, List.length_map]

/-- A binary `__y0` is listed under the name of the condition `_y0`, and the row over both loses a term. -/
theorem exists_clash :
    ∃ p form, p.Keyed ∧ p.standardForm false = .ok form ∧
      lines p = .ok ["MAX __y0 + z", "SUBJECT TO", "z < 10", "z - 10__y0 < 0", "10__y0 < 10", "END", "INT __y0",
        "INT __y0"] ∧
      ¬Set.InjOn (listedName form.condition) {x | x ∈ occurring p form} ∧
      Printed p form "__y0" "__y0" ∧ Printed p form "_y0" "__y0" ∧
      ∃ r ∈ form.rows, r.terms = [("__y0", 1), ("_y0", 10)] ∧ listedTerms form.condition r.terms = [("__y0", 10)] := by
  have hmade : (sampleProblem "__y0").standardForm false = .ok (compiledSample "__y0") := by decide +kernel
  refine ⟨_, _, keyed_sampleProblem (by decide), hmade, by decide +kernel, ?_, ?_, ?_, ?_⟩
  · intro hinj
    have heq := @hinj "__y0" (by decide) "_y0" (by decide) (by decide)
    exact absurd heq (by decide)
  · exact .objective (by decide)
  · exact (by decide : listedName ["_y0"] "_y0" = "__y0") ▸ .binary (by decide)
  · exact ⟨⟨[("__y0", 1), ("_y0", 10)], .le, 10, none⟩, by simp [compiledSample], rfl, by decide⟩

end Lines

end Listing

end ExactLP
