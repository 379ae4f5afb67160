import ExactLP.Proofs.Listing.Names
import ExactLP.Proofs.Search.Feasibility
import ExactLP.Proofs.Standard.Splitting

/-!
# Proofs.Listing.Declarations — what a listing declares and what a search decides

A listing and a search take the binary, the integer and the split variables of a problem from the same three lists of
names, each in its own way.  The binaries agree.  The integers of a listing are those of a search, but a name that is
given twice is declared twice; and a listing declares every unrestricted variable free, also one that is binary and
that a search does not split.

* `prepare_of_form`: a problem that has a standard form can be searched.
* `declarations_agree`: the declarations of a listing beside the lists of a search.
* `exists_disagreement`: a problem on which they differ.
-/

namespace ExactLP

namespace Listing

variable {p : Problem} {form : StandardForm} {options : SearchOptions} {b : Search}

/-! ## Definitions -/

section Defs

/-- The search on a problem with a given standard form. -/
def searchOf (p : Problem) (form : StandardForm) (options : SearchOptions) : Search where
  problem := p
  form := form
  binary := firstOccurrences (p.binary ++ form.condition)
  integer := (firstOccurrences p.integer).filter fun name => !(firstOccurrences (p.binary ++ form.condition)).contains name
  objective := p.objective.split form.split
  options := options

/-- The integers that a listing declares: those that are not binary, as often as they are given. -/
def integers (p : Problem) (b : Search) : List String := p.integer.filter fun name => !b.binary.contains name

/-- The declarations of a problem beside a search: integers, binaries under their listed names, and unrestricted
variables. -/
def declaredLines (p : Problem) (b : Search) : List String :=
  (integers p b).map (fun name => s!"GIN {name}") ++
    b.binary.map (fun name => s!"INT {listedName b.form.condition name}") ++
    p.unrestricted.map fun name => s!"FREE {name}"

end Defs

/-! ## Lists of a listing and of a search -/

section Lists

theorem prepare_of_form (hbranches : 0 ≤ options.maxBranches) (h : p.standardForm true = .ok form) :
    Search.prepare p options = .ok (searchOf p form options) := by
  unfold Search.prepare
  rw [if_neg (not_lt.mpr hbranches), h]
  rfl

/-- A problem that can be listed can be searched, with the same conditions. -/
theorem prepare_of_listed (hbranches : 0 ≤ options.maxBranches)
    (hrows : ∀ c ∈ p.constraints, ∀ row ∈ c.operands, row.terms.Nonzero) (h : p.standardForm false = .ok form) :
    ∃ b, Search.prepare p options = .ok b ∧ b.form.condition = form.condition := by
  obtain ⟨parts, hparts, hcondition⟩ := standardize_split_of_ok hrows h
  exact ⟨_, prepare_of_form hbranches hparts, hcondition⟩

variable (hprepare : Search.prepare p options = .ok b)
include hprepare

theorem declarations_eq : declarations p b.form.condition = declaredLines p b := by
  obtain ⟨-, hbinary, -⟩ := Search.prepare_ok hprepare
  unfold declarations declaredLines integers
  rw [hbinary]

theorem nodup_binary : b.binary.Nodup := by
  obtain ⟨-, hbinary, -⟩ := Search.prepare_ok hprepare
  exact hbinary ▸ nodup_firstOccurrences _

/-- The listed names of the binaries are apart unless one of them is the listed name of a condition. -/
theorem nodup_listed_binary (hp : p.Keyed) :
    (b.binary.map (listedName b.form.condition)).Nodup ↔
      ∀ c ∈ b.form.condition, listedName b.form.condition c ∉ p.binary := by
  obtain ⟨hform, hbinary, -⟩ := Search.prepare_ok hprepare
  obtain ⟨derived, hmade⟩ := exists_madeOf hform
  obtain ⟨-, hres⟩ := hmade.tidy hp.constraints
  have hmem : ∀ {name}, name ∈ b.binary ↔ name ∈ p.binary ∨ name ∈ b.form.condition := by
    intro name
    rw [hbinary, mem_firstOccurrences, List.mem_append]
  rw [List.nodup_map_iff_inj_on (nodup_binary hprepare)]
  refine (injOn_listedName_iff hres fun c hc => hmem.mpr (Or.inr hc)).trans ?_
  refine forall₂_congr fun c hc => ?_
  rw [hmem, or_iff_left (not_mem_of_listed hres hc)]

/-- The integers of a search are those that are declared, each once. -/
theorem firstOccurrences_integers : firstOccurrences (integers p b) = b.integer := by
  obtain ⟨-, -, hinteger⟩ := Search.prepare_ok hprepare
  rw [integers, firstOccurrences_filter, hinteger]

theorem integers_eq_iff : integers p b = b.integer ↔ (integers p b).Nodup := by
  rw [← firstOccurrences_integers hprepare]
  exact ⟨fun h => h ▸ nodup_firstOccurrences _, fun h => (firstOccurrences_eq_self h).symm⟩

/-- A search splits the unrestricted variables that are not binary. -/
theorem split_eq : b.form.split = p.unrestricted.filter fun name => !p.binary.contains name := by
  obtain ⟨hform, -, -⟩ := Search.prepare_ok hprepare
  obtain ⟨derived, hmade⟩ := exists_madeOf hform
  exact hmade.split_eq

theorem unrestricted_eq_iff : p.unrestricted = b.form.split ↔ ∀ name ∈ p.unrestricted, name ∉ p.binary := by
  rw [split_eq hprepare, eq_comm, List.filter_eq_self]
  simp

end Lists

/-! ## Declarations -/

section Declarations

/-- A problem that can be listed can be searched, and its declarations are these.  The binaries are those of the search,
each declared once unless one of them is the listed name of a condition.  The integers without repetitions are those of
the search, and they are these exactly where none is given twice.  The search splits the unrestricted variables that are
not binary, and the free variables are these exactly where none of them is binary. -/
theorem declarations_agree {ls : List String} (hp : p.Keyed)
    (hrows : ∀ c ∈ p.constraints, ∀ row ∈ c.operands, row.terms.Nonzero) (hbranches : 0 ≤ options.maxBranches)
    (h : lines p = .ok ls) :
    ∃ b plain objective rowLines, Search.prepare p options = .ok b ∧ p.standardForm false = .ok plain ∧
      plain.condition = b.form.condition ∧ p.objective.written = .ok objective ∧
      ls = s!"{goalWord p.goal} {objective}" :: "SUBJECT TO" :: rowLines ++ "END" :: declaredLines p b ∧
      List.Forall₂ (IsLineOf plain.condition) plain.rows rowLines ∧
      (b.binary.Nodup ∧ ((b.binary.map (listedName b.form.condition)).Nodup ↔
        ∀ c ∈ b.form.condition, listedName b.form.condition c ∉ p.binary)) ∧
      (firstOccurrences (integers p b) = b.integer ∧ (integers p b = b.integer ↔ (integers p b).Nodup)) ∧
      (b.form.split = (p.unrestricted.filter fun name => !p.binary.contains name) ∧
        (p.unrestricted = b.form.split ↔ ∀ name ∈ p.unrestricted, name ∉ p.binary)) := by
  obtain ⟨plain, objective, rowLines, hplain, hobjective, hlines, hls⟩ := of_lines h
  obtain ⟨b, hprepare, hcondition⟩ := prepare_of_listed hbranches hrows hplain
  refine ⟨b, plain, objective, rowLines, hprepare, hplain, hcondition.symm, hobjective, ?_, hlines,
    ⟨nodup_binary hprepare, nodup_listed_binary hprepare hp⟩,
    ⟨firstOccurrences_integers hprepare, integers_eq_iff hprepare⟩,
    ⟨split_eq hprepare, unrestricted_eq_iff hprepare⟩⟩
  rw [hls, ← hcondition, declarations_eq hprepare]

def mixedConstraints : List Constraint :=
  [.plain ⟨[("x", 1), ("y", 1)], .le, 4, none⟩, .implies ⟨[("b", 1)], .gt, 0, none⟩ ⟨[("y", 1)], .le, 2, none⟩]

/-- Two numbers and a binary, with some names for integers and some for variables without a sign. -/
def mixedProblem (integer unrestricted : List String) : Problem where
  goal := .maximize
  objective := [("x", 1), ("y", 1)]
  constraints := mixedConstraints
  binary := ["b"]
  integer := integer
  unrestricted := unrestricted

/-- The standard form of the mixed problem where nothing is split. -/
def mixedForm : StandardForm where
  rows := [⟨[("x", 1), ("y", 1)], .le, 4, none⟩, ⟨[("y", 1), ("_y0", -4)], .le, 2, none⟩,
    ⟨[("b", 1), ("_y0", 4)], .le, 4, none⟩]
  condition := ["_y0"]

theorem keyed_mixedProblem (integer unrestricted : List String) : (mixedProblem integer unrestricted).Keyed where
  objective := by simp [mixedProblem, Keyed.names]
  constraints := (by decide : ∀ c ∈ mixedConstraints, c.Keyed)

/-- Where no list repeats a name or shares one with another list, all lists agree. -/
theorem declarations_agree_sample :
    ∃ b, Search.prepare (mixedProblem ["x"] ["y"]) { tieBreak := .first } = .ok b ∧
      lines (mixedProblem ["x"] ["y"]) = .ok ["MAX x + y", "SUBJECT TO", "x + y < 4", "y - 4__y0 < 2",
        "b + 4__y0 < 4", "END", "GIN x", "INT b", "INT __y0", "FREE y"] ∧
      b.binary.map (listedName b.form.condition) = ["b", "__y0"] ∧ b.integer = ["x"] ∧ b.form.split = ["y"] := by
  have hlines : lines (mixedProblem ["x"] ["y"]) = .ok ["MAX x + y", "SUBJECT TO", "x + y < 4", "y - 4__y0 < 2",
      "b + 4__y0 < 4", "END", "GIN x", "INT b", "INT __y0", "FREE y"] := by decide +kernel
  have hform : (mixedProblem ["x"] ["y"]).standardForm false = .ok mixedForm := by decide +kernel
  obtain ⟨b, plain, -, -, hprepare, hplain, hcondition, -, -, -, -, ⟨hintegers, -⟩, -, hfree⟩ :=
    @declarations_agree _ { tieBreak := .first } _ (keyed_mixedProblem _ _) (by decide) (by decide) hlines
  obtain rfl := Except.ok.inj (hform.symm.trans hplain)
  have hbinary : b.binary = ["b", "_y0"] := by
    rw [(Search.prepare_ok hprepare).2.1, ← hcondition]
    decide
  refine ⟨b, hprepare, hlines, ?_, ?_, (hfree.mpr (by decide)).symm⟩
  · rw [hbinary, ← hcondition]
    decide
  · rw [← hintegers, integers, hbinary]
    decide

/-- An integer that is given twice is declared twice, and a binary that is unrestricted is declared free, though it is
not split. -/
theorem exists_disagreement :
    ∃ p b, p.Keyed ∧ Search.prepare p { tieBreak := .first } = .ok b ∧
      lines p = .ok ["MAX x + y", "SUBJECT TO", "x + y < 4", "y - 4__y0 < 2", "b + 4__y0 < 4", "END", "GIN x", "GIN x",
        "INT b", "INT __y0", "FREE b"] ∧
      b.integer = ["x"] ∧ b.form.split = [] := by
  have hform : (mixedProblem ["x", "x"] ["b"]).standardForm true = .ok mixedForm := by decide +kernel
  refine ⟨_, _, keyed_mixedProblem _ _, prepare_of_form (by decide) hform, by decide +kernel, ?_, rfl⟩
  show List.filter _ _ = _
  decide

end Declarations

end Listing

end ExactLP
