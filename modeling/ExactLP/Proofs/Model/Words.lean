import ExactLP.Model.Written
import ExactLP.Proofs.Named
import Mathlib.Algebra.Order.Ring.Unbundled.Rat

/-!
# Proofs.Model.Words — rows over integers are told apart by their texts

The text of a row over integers is a list of words with a blank between any two: the first term, a sign and a term
for each other term, the comparator, the right side.  No word holds a blank, so the text gives its words back.  A name
that starts with no digit and no minus sign gives the coefficient before it back, whatever other signs and digits it
holds.

* `Terms.words`, `Row.words`: the words; `Row.written_eq_words`: the text is made of them.
* `glued_inj`: a coefficient without its sign and the name behind it.
* `Terms.words_inj`: forms with the same words.
* `Row.written_eq_iff`: rows with the same text.
-/

namespace ExactLP

variable {c c' : Rat} {name name' : String} {terms terms' : Terms} {r r' : Row}

/-! ## Definitions -/

section Defs

/-- The name starts with a character that is no digit and no minus sign, as every letter is, and holds no blank. -/
def Legible (name : String) : Prop :=
  (∃ start ∈ name.toList.head?, start.isDigit = false ∧ start ≠ '-') ∧ ' ' ∉ name.toList

instance (name : String) : Decidable (Legible name) :=
  decidable_of_iff (name.toList.head?.any (fun start => !start.isDigit && start != '-') = true ∧ ' ' ∉ name.toList) <| by
    refine and_congr_left fun _ => ?_
    simp [Option.any_eq_true]

/-- A term of a form without zero coefficients: an integer before a legible name. -/
structure LegibleTerm (p : String × Rat) : Prop where
  nonzero : p.2 ≠ 0
  integer : p.2.den = 1
  name : Legible p.1

/-- A row over integers, whose names are legible. -/
structure Row.Legible (r : Row) : Prop where
  terms : ∀ p ∈ r.terms, LegibleTerm p
  rhs : r.rhs.den = 1

/-- The minus sign of a first term. -/
def minusText (c : Rat) : List Char := if c < 0 then ['-'] else []

/-- The sign before a later term. -/
def signWord (c : Rat) : List Char := if c < 0 then ['-'] else ['+']

/-- The digits of a coefficient, which are left out where it is 1 or -1. -/
def digitText (c : Rat) : List Char := if c.num.natAbs = 1 then [] else Nat.toDigits 10 c.num.natAbs

/-- The digits of a coefficient and the name behind them. -/
def glued (p : String × Rat) : List Char := digitText p.2 ++ p.1.toList

namespace Terms

/-- The words of the terms that follow the first. -/
def laterWords (terms : Terms) : List (List Char) := terms.flatMap fun p => [signWord p.2, glued p]

/-- The words of a form; of an empty one, an empty word. -/
def words : Terms → List (List Char)
  | [] => [[]]
  | p :: rest => (minusText p.2 ++ glued p) :: laterWords rest

end Terms

/-- The words of a row. -/
def Row.words (r : Row) : List (List Char) := r.terms.words ++ [r.cmp.text.toList, (toString r.rhs.num).toList]

end Defs

/-! ## The text of a row is made of its words -/

section Texts

theorem isDigit_of_mem_digitText {ch : Char} (h : ch ∈ digitText c) : ch.isDigit = true := by
  unfold digitText at h
  split at h
  · cases h
  · exact Nat.isDigit_of_mem_toDigits (by decide) (by decide) h

/-- The text of an integer is its sign and the digits of its magnitude. -/
theorem toList_toString_int (i : Int) :
    (toString i).toList = (if i < 0 then ['-'] else []) ++ Nat.toDigits 10 i.natAbs := by
  cases i with
  | ofNat n =>
    show (toString n).toList = _
    rw [Nat.toString_eq_ofList_toDigits, String.toList_ofList]
    simp
  | negSucc n =>
    show ("-" ++ toString n.succ).toList = _
    rw [String.toList_append, Nat.toString_eq_ofList_toDigits, if_pos (Int.negSucc_lt_zero n)]
    exact congrArg ('-' :: ·) String.toList_ofList

/-- A coefficient over the integers before its name. -/
theorem coefficientText_of_integer (hc : c ≠ 0) (hint : c.den = 1) :
    coefficientText c = .ok (minusText c ++ digitText c) := by
  have hcast : (c.num : Rat) = c := (Rat.den_eq_one_iff c).mp hint
  unfold coefficientText minusText digitText
  split
  · rename_i hone
    subst hone
    rfl
  · rename_i hone
    split
    · rename_i hminus
      subst hminus
      rfl
    · rename_i hminus
      have habs : c.num.natAbs ≠ 1 := by
        intro h
        rcases Int.natAbs_eq_iff.mp h with h | h
        · exact hone (by rw [← hcast, h]; rfl)
        · exact hminus (by rw [← hcast, h]; rfl)
      rw [if_neg habs, numberText, if_pos hint]
      show Except.ok (toString c.num).toList = _
      rw [toList_toString_int]
      simp only [Rat.num_neg]

/-- In a later term the sign stands apart. -/
theorem laterText_of_integer (hc : c ≠ 0) :
    laterText c (minusText c ++ digitText c) = signWord c ++ ' ' :: digitText c := by
  have hdigits : (digitText c).flatMap (fun ch => if ch = '-' then ['-', ' '] else [ch]) = digitText c := by
    have hkept : ∀ ch ∈ digitText c, (if ch = '-' then ['-', ' '] else [ch]) = [ch] := by
      intro ch hch
      refine if_neg fun heq => ?_
      have hdigit := isDigit_of_mem_digitText hch
      rw [heq] at hdigit
      cases hdigit
    rw [List.flatMap_congr hkept, List.flatMap_singleton']
  unfold laterText minusText signWord
  rw [List.flatMap_append, hdigits]
  rcases lt_or_gt_of_ne hc with hneg | hpos
  · rw [if_pos hneg, if_pos hneg, if_neg hneg.le.not_gt]
    rfl
  · rw [if_neg hpos.le.not_gt, if_neg hpos.le.not_gt, if_pos hpos]
    rfl

/-- The texts of the terms that follow the first. -/
theorem Terms.laterTexts_eq (h : ∀ p ∈ terms, LegibleTerm p) :
    terms.laterTexts = .ok (terms.map fun p => signWord p.2 ++ ' ' :: glued p) := by
  induction terms with
  | nil => rfl
  | cons p rest ih =>
    obtain ⟨hp, hrest⟩ := List.forall_mem_cons.mp h
    rw [laterTexts, coefficientText_of_integer hp.nonzero hp.integer, ih hrest]
    show Except.ok ((laterText p.2 (minusText p.2 ++ digitText p.2) ++ p.1.toList) :: _) = _
    rw [laterText_of_integer hp.nonzero, List.append_assoc]
    rfl

/-- Texts of two words each give the text of all words. -/
theorem intercalate_laterWords (word : List Char) (terms : Terms) :
    [' '].intercalate (word :: terms.map fun p => signWord p.2 ++ ' ' :: glued p) =
      [' '].intercalate (word :: terms.laterWords) := by
  induction terms generalizing word with
  | nil => rfl
  | cons p rest ih =>
    have hrest := ih (glued p)
    show _ = [' '].intercalate (word :: signWord p.2 :: glued p :: Terms.laterWords rest)
    rw [List.intercalate_cons_cons, List.intercalate_cons_cons, ← hrest]
    cases rest with
    | nil => simp
    | cons q rest => simp

/-- Over the integers the text of a form is made of its words. -/
theorem Terms.nonzeroText_eq (h : ∀ p ∈ terms, LegibleTerm p) :
    terms.nonzeroText = .ok ([' '].intercalate terms.words) := by
  cases terms with
  | nil => rfl
  | cons p rest =>
    obtain ⟨hp, hrest⟩ := List.forall_mem_cons.mp h
    rw [nonzeroText, coefficientText_of_integer hp.nonzero hp.integer, laterTexts_eq hrest]
    show Except.ok _ = _
    rw [List.append_assoc]
    exact congrArg Except.ok (intercalate_laterWords _ rest)

/-- Two more words are two more blanks. -/
theorem intercalate_append_pair {words : List (List Char)} (h : words ≠ []) (first second : List Char) :
    [' '].intercalate (words ++ [first, second]) = [' '].intercalate words ++ ' ' :: first ++ ' ' :: second := by
  induction words with
  | nil => exact absurd rfl h
  | cons word rest ih =>
    cases rest with
    | nil => simp
    | cons next rest =>
      rw [List.cons_append, List.cons_append, List.intercalate_cons_cons, List.intercalate_cons_cons,
        ← List.cons_append, ih (List.cons_ne_nil _ _)]
      simp

theorem Terms.words_ne_nil (terms : Terms) : terms.words ≠ [] := by
  cases terms <;> exact List.cons_ne_nil _ _

/-- The text of a row over integers is made of its words. -/
theorem Row.written_eq_words (h : r.Legible) : r.written = .ok (String.ofList ([' '].intercalate r.words)) := by
  have hnonzero : r.terms.nonzero = r.terms :=
    List.filter_eq_self.mpr fun p hp => by simpa using (h.terms p hp).nonzero
  unfold Row.written Terms.written Row.words
  rw [hnonzero, Terms.nonzeroText_eq h.terms, numberText, if_pos h.rhs,
    intercalate_append_pair r.terms.words_ne_nil]
  refine congrArg Except.ok (String.toList_injective ?_)
  show (String.ofList ([' '].intercalate r.terms.words) ++ " " ++ r.cmp.text ++ " " ++ toString r.rhs.num).toList = _
  simp

end Texts

/-! ## The text gives its words back -/

section Blanks

theorem blank_not_mem_minus (p : Prop) [Decidable p] : ' ' ∉ if p then ['-'] else [] := by
  split <;> decide

theorem blank_not_mem_glued (h : Legible name) (c : Rat) : ' ' ∉ glued (name, c) := by
  intro hmem
  rcases List.mem_append.mp hmem with hdigit | hname
  · exact absurd (isDigit_of_mem_digitText hdigit) (by decide)
  · exact h.2 hname

theorem Terms.blank_not_mem_words (h : ∀ p ∈ terms, LegibleTerm p) : ∀ word ∈ terms.words, ' ' ∉ word := by
  cases terms with
  | nil => exact List.forall_mem_singleton.mpr List.not_mem_nil
  | cons p rest =>
    obtain ⟨hp, hrest⟩ := List.forall_mem_cons.mp h
    refine List.forall_mem_cons.mpr ⟨fun hmem => ?_, fun word hword => ?_⟩
    · rcases List.mem_append.mp hmem with hminus | hglued
      · exact blank_not_mem_minus _ hminus
      · exact blank_not_mem_glued hp.name p.2 hglued
    · obtain ⟨q, hq, hword⟩ := List.mem_flatMap.mp hword
      rcases List.mem_pair.mp hword with rfl | rfl
      · unfold signWord
        split <;> decide
      · exact blank_not_mem_glued (hrest q hq).name q.2

theorem blank_not_mem_toString_int (i : Int) : ' ' ∉ (toString i).toList := by
  rw [toList_toString_int]
  intro hmem
  rcases List.mem_append.mp hmem with hminus | hdigit
  · exact blank_not_mem_minus _ hminus
  · exact absurd (Nat.isDigit_of_mem_toDigits (by decide) (by decide) hdigit) (by decide)

theorem Comparator.blank_not_mem_text (cmp : Comparator) : ' ' ∉ cmp.text.toList := by
  cases cmp <;> decide +kernel

theorem Row.blank_not_mem_words (h : r.Legible) : ∀ word ∈ r.words, ' ' ∉ word := by
  refine List.forall_mem_append.mpr ⟨Terms.blank_not_mem_words h.terms, ?_⟩
  exact List.forall_mem_cons.mpr ⟨r.cmp.blank_not_mem_text,
    List.forall_mem_singleton.mpr (blank_not_mem_toString_int r.rhs.num)⟩

/-- Rows over integers with the same text have the same words. -/
theorem Row.words_eq_of_written (h : r.Legible) (h' : r'.Legible) (heq : r.written = r'.written) :
    r.words = r'.words := by
  rw [written_eq_words h, written_eq_words h', Except.ok.injEq, String.ofList_inj] at heq
  have hsplit : ∀ {s : Row}, s.Legible → ([' '].intercalate s.words).splitOn ' ' = s.words := fun hs =>
    List.splitOn_intercalate ' ' (blank_not_mem_words hs) (List.append_ne_nil_of_left_ne_nil (Terms.words_ne_nil _) _)
  rw [← hsplit h, heq, hsplit h']

end Blanks

/-! ## Words are read back -/

section Reading

/-- The digits before a name are those of the coefficient. -/
theorem takeWhile_glued (h : Legible name) (c : Rat) : (glued (name, c)).takeWhile Char.isDigit = digitText c := by
  obtain ⟨⟨start, hstart, hdigit, -⟩, -⟩ := h
  have hname : name.toList.takeWhile Char.isDigit = [] := by
    obtain ⟨rest, hrest⟩ := List.head?_eq_some_iff.mp hstart
    rw [hrest, List.takeWhile_cons, hdigit]
    rfl
  unfold glued
  rw [List.takeWhile_append_of_pos fun ch hch => isDigit_of_mem_digitText hch, hname, List.append_nil]

/-- The digits of a coefficient give its magnitude back: only those of 1 and -1 are left out. -/
theorem natAbs_eq_of_digitText (h : digitText c = digitText c') : c.num.natAbs = c'.num.natAbs := by
  unfold digitText at h
  split_ifs at h with hone hone' hone'
  · rw [hone, hone']
  · exact absurd h.symm Nat.toDigits_ne_nil
  · exact absurd h Nat.toDigits_ne_nil
  · rw [← Nat.ofDigitChars_ten_toDigits (n := c.num.natAbs), h, Nat.ofDigitChars_ten_toDigits]

/-- A coefficient without its sign and the name behind it are read back. -/
theorem glued_inj (h : Legible name) (h' : Legible name') (heq : glued (name, c) = glued (name', c')) :
    name = name' ∧ c.num.natAbs = c'.num.natAbs := by
  have hdigits : digitText c = digitText c' := by rw [← takeWhile_glued h, heq, takeWhile_glued h']
  refine ⟨String.toList_injective ?_, natAbs_eq_of_digitText hdigits⟩
  unfold glued at heq
  rw [hdigits] at heq
  exact List.append_cancel_left heq

theorem eq_of_natAbs (hint : c.den = 1) (hint' : c'.den = 1) (habs : c.num.natAbs = c'.num.natAbs)
    (hsign : c < 0 ↔ c' < 0) : c = c' := by
  rw [← Rat.num_neg, ← Rat.num_neg (a := c')] at hsign
  refine Rat.ext ?_ (hint.trans hint'.symm)
  omega

theorem signWord_inj (h : signWord c = signWord c') : c < 0 ↔ c' < 0 := by
  unfold signWord at h
  split_ifs at h with hc hc' hc'
  · exact iff_of_true hc hc'
  · simp at h
  · simp at h
  · exact iff_of_false hc hc'

/-- No digit and no first character of a name is a minus sign. -/
theorem minus_not_head_glued (h : Legible name) (c : Rat) (rest : List Char) : glued (name, c) ≠ '-' :: rest := by
  intro heq
  unfold glued at heq
  cases hdigits : digitText c with
  | nil =>
    obtain ⟨⟨start, hstart, -, hminus⟩, -⟩ := h
    rw [hdigits, List.nil_append] at heq
    rw [heq] at hstart
    exact hminus (Option.some.inj hstart).symm
  | cons ch chars =>
    rw [hdigits] at heq
    obtain ⟨rfl, -⟩ := List.cons.inj heq
    exact absurd (isDigit_of_mem_digitText (hdigits ▸ List.mem_cons_self)) (by decide)

/-- A first term is read back. -/
theorem LegibleTerm.eq_of_first {p p' : String × Rat} (h : LegibleTerm p) (h' : LegibleTerm p')
    (heq : minusText p.2 ++ glued p = minusText p'.2 ++ glued p') : p = p' := by
  have hsign : p.2 < 0 ↔ p'.2 < 0 := by
    unfold minusText at heq
    split_ifs at heq with hp hp' hp'
    · exact iff_of_true hp hp'
    · exact absurd heq.symm (minus_not_head_glued h'.name _ _)
    · exact absurd heq (minus_not_head_glued h.name _ _)
    · exact iff_of_false hp hp'
  have hglued : glued p = glued p' := by
    unfold minusText at heq
    rw [if_congr hsign rfl rfl] at heq
    exact List.append_cancel_left heq
  obtain ⟨hname, habs⟩ := glued_inj h.name h'.name hglued
  exact Prod.ext hname (eq_of_natAbs h.integer h'.integer habs hsign)

/-- The terms after the first are read back. -/
theorem Terms.laterWords_inj (h : ∀ p ∈ terms, LegibleTerm p) (h' : ∀ p ∈ terms', LegibleTerm p)
    (heq : terms.laterWords = terms'.laterWords) : terms = terms' := by
  induction terms generalizing terms' with
  | nil =>
    cases terms' with
    | nil => rfl
    | cons p' rest' => cases heq
  | cons p rest ih =>
    cases terms' with
    | nil => cases heq
    | cons p' rest' =>
      obtain ⟨hp, hrest⟩ := List.forall_mem_cons.mp h
      obtain ⟨hp', hrest'⟩ := List.forall_mem_cons.mp h'
      obtain ⟨hsign, htail⟩ := List.cons.inj heq
      obtain ⟨hglued, hlater⟩ := List.cons.inj htail
      obtain ⟨hname, habs⟩ := glued_inj hp.name hp'.name hglued
      rw [ih hrest hrest' hlater, Prod.ext hname (eq_of_natAbs hp.integer hp'.integer habs (signWord_inj hsign))]

/-- Forms with the same words are the same; only an empty one has an empty word. -/
theorem Terms.words_inj (h : ∀ p ∈ terms, LegibleTerm p) (h' : ∀ p ∈ terms', LegibleTerm p)
    (heq : terms.words = terms'.words) : terms = terms' := by
  have hfilled : ∀ {p : String × Rat}, LegibleTerm p → minusText p.2 ++ glued p ≠ [] := by
    intro p hp hnil
    obtain ⟨⟨start, hstart, -⟩, -⟩ := hp.name
    have hname : p.1.toList = [] := (List.append_eq_nil_iff.mp (List.append_eq_nil_iff.mp hnil).2).2
    rw [hname] at hstart
    cases hstart
  cases terms with
  | nil =>
    cases terms' with
    | nil => rfl
    | cons p' rest' => exact absurd (List.cons.inj heq).1.symm (hfilled (h' p' List.mem_cons_self))
  | cons p rest =>
    cases terms' with
    | nil => exact absurd (List.cons.inj heq).1 (hfilled (h p List.mem_cons_self))
    | cons p' rest' =>
      obtain ⟨hp, hrest⟩ := List.forall_mem_cons.mp h
      obtain ⟨hp', hrest'⟩ := List.forall_mem_cons.mp h'
      obtain ⟨hfirst, hlater⟩ := List.cons.inj heq
      rw [hp.eq_of_first hp' hfirst, laterWords_inj hrest hrest' hlater]

theorem Comparator.text_injective : Function.Injective text := by
  intro cmp cmp' heq
  exact Option.some.inj ((ofText?_text cmp).symm.trans (heq ▸ ofText?_text cmp'))

end Reading

/-! ## Rows with the same text -/

section Rows

/-- Over integers and legible names every row has a text, and two rows have the same text only where they have the same
comparator, the same right side and the same terms in the same order. -/
theorem Row.written_eq_iff (h : r.Legible) (h' : r'.Legible) :
    (∃ text, r.written = .ok text) ∧
      (r.written = r'.written ↔ r.cmp = r'.cmp ∧ r.rhs = r'.rhs ∧ r.terms = r'.terms) := by
  refine ⟨⟨_, written_eq_words h⟩, fun heq => ?_, fun ⟨hcmp, hrhs, hterms⟩ => ?_⟩
  · obtain ⟨hterms, hlast⟩ := List.append_inj' (words_eq_of_written h h' heq) rfl
    obtain ⟨hcmp, hlast⟩ := List.cons.inj hlast
    have hnum : r.rhs.num = r'.rhs.num := toString_int_injective (String.toList_injective (List.cons.inj hlast).1)
    exact ⟨Comparator.text_injective (String.toList_injective hcmp), Rat.ext hnum (h.rhs.trans h'.rhs.symm),
      Terms.words_inj h.terms h'.terms hterms⟩
  · unfold written
    rw [hcmp, hrhs, hterms]

/-- The difference of a part `x-` and `y`. -/
def samplePart : Row := ⟨[("x-", 1), ("y", -1)], .le, 12, none⟩

/-- The difference of `x` and `y`. -/
def sampleDifference : Row := ⟨[("x", 1), ("y", -1)], .le, 12, none⟩

/-- The texts `x- - y <= 12` and `x - y <= 12` are those of two rows. -/
theorem Row.written_eq_iff_sample : samplePart.Legible ∧ sampleDifference.Legible ∧
    samplePart.written = .ok "x- - y <= 12" ∧ samplePart.written ≠ sampleDifference.written := by
  have hpart : samplePart.Legible :=
    ⟨fun p hp => by
      rcases List.mem_pair.mp hp with rfl | rfl <;> exact ⟨by decide, by decide, by decide +kernel⟩, by decide⟩
  have hdifference : sampleDifference.Legible :=
    ⟨fun p hp => by
      rcases List.mem_pair.mp hp with rfl | rfl <;> exact ⟨by decide, by decide, by decide +kernel⟩, by decide⟩
  refine ⟨hpart, hdifference, by rw [written_eq_words hpart]; decide +kernel, fun heq => ?_⟩
  exact absurd ((written_eq_iff hpart hdifference).2.mp heq).2.2 (by decide)

end Rows

end ExactLP
