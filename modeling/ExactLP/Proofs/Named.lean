import ExactLP.Model.Row
import Mathlib.Data.List.Nodup

/-!
# Proofs.Named — names, first occurrences and coefficients

* `mem_firstOccurrences`, `nodup_firstOccurrences`: the first occurrences of a list are its elements, each
  once.
* `nodup_of_length_firstOccurrences`, `length_firstOccurrences`: a list is as long as its first occurrences where it
  repeats nothing.
* `Terms.coefficient_of_not_mem`: a name that does not occur has coefficient zero.
* `Keyed.mem_of_find?`: what is found under a key is an entry.
* `Keyed.nodup_put`, `Keyed.mem_names_put`: the keys after a write.
* `Keyed.writes`, `Keyed.find?_writes`: after some writes a key has the value that was written last.
* `toString_nat_injective`, `toString_int_injective`: numbered names are told apart by their numbers.
-/

namespace ExactLP

variable {α : Type} [DecidableEq α] {a : α} {xs seen : List α}

/-! ## First occurrences -/

section FirstOccurrences

/-- The fold of `firstOccurrences` from elements seen before. -/
private theorem fold_spec (xs seen : List α) (hseen : seen.Nodup) :
    (xs.foldl (fun seen x => if x ∈ seen then seen else seen ++ [x]) seen).Nodup ∧
      (xs.foldl (fun seen x => if x ∈ seen then seen else seen ++ [x]) seen).Sublist (seen ++ xs) ∧
      ∀ a, a ∈ xs.foldl (fun seen x => if x ∈ seen then seen else seen ++ [x]) seen ↔ a ∈ seen ∨ a ∈ xs := by
  induction xs generalizing seen with
  | nil => exact ⟨hseen, by simp, by simp⟩
  | cons x rest ih =>
    rw [List.foldl_cons]
    by_cases hx : x ∈ seen
    · obtain ⟨h1, h2, h3⟩ := ih seen hseen
      rw [if_pos hx]
      refine ⟨h1, h2.trans ((List.Sublist.refl seen).append (List.sublist_cons_self x rest)), ?_⟩
      intro a
      rw [h3, List.mem_cons]
      constructor
      · rintro (h | h)
        · exact Or.inl h
        · exact Or.inr (Or.inr h)
      · rintro (h | rfl | h)
        · exact Or.inl h
        · exact Or.inl hx
        · exact Or.inr h
    · have hnew : (seen ++ [x]).Nodup := List.concat_eq_append ▸ hseen.concat hx
      obtain ⟨h1, h2, h3⟩ := ih (seen ++ [x]) hnew
      rw [if_neg hx]
      refine ⟨h1, by simpa using h2, ?_⟩
      intro a
      rw [h3, List.mem_append, List.mem_singleton, List.mem_cons, or_assoc]

theorem nodup_firstOccurrences (xs : List α) : (firstOccurrences xs).Nodup :=
  (fold_spec xs [] List.nodup_nil).1

theorem mem_firstOccurrences : a ∈ firstOccurrences xs ↔ a ∈ xs := by
  unfold firstOccurrences
  simpa using (fold_spec xs [] List.nodup_nil).2.2 a

theorem nodup_of_length_firstOccurrences (h : (firstOccurrences xs).length = xs.length) : xs.Nodup := by
  have hsub : (firstOccurrences xs).Sublist xs := (fold_spec xs [] List.nodup_nil).2.1
  rw [← hsub.eq_of_length h]
  exact nodup_firstOccurrences xs

theorem firstOccurrences_eq_self (h : xs.Nodup) : firstOccurrences xs = xs := by
  have hsub : (firstOccurrences xs).Sublist xs := (fold_spec xs [] List.nodup_nil).2.1
  refine hsub.eq_of_length (List.Perm.length_eq ?_)
  exact (List.perm_ext_iff_of_nodup (nodup_firstOccurrences xs) h).mpr fun a => mem_firstOccurrences

/-- Elements may be left out before or after. -/
theorem firstOccurrences_filter (xs : List α) (p : α → Bool) :
    firstOccurrences (xs.filter p) = (firstOccurrences xs).filter p := by
  suffices hgen : ∀ seen : List α,
      (xs.filter p).foldl (fun seen x => if x ∈ seen then seen else seen ++ [x]) (seen.filter p) =
        (xs.foldl (fun seen x => if x ∈ seen then seen else seen ++ [x]) seen).filter p from hgen []
  induction xs with
  | nil => exact fun seen => rfl
  | cons x rest ih =>
    intro seen
    rw [List.foldl_cons, ← ih, List.filter_cons]
    by_cases hx : p x = true
    · rw [if_pos hx, List.foldl_cons]
      by_cases hseen : x ∈ seen <;> simp [hseen, hx]
    · rw [if_neg hx]
      by_cases hseen : x ∈ seen <;> simp [hseen, hx]

theorem length_firstOccurrences (h : xs.Nodup) : (firstOccurrences xs).length = xs.length :=
  congrArg List.length (firstOccurrences_eq_self h)

end FirstOccurrences

/-! ## Coefficients -/

section Coefficients

theorem Keyed.find?_eq_none_iff {β : Type} {keyed : Keyed α β} : keyed.find? a = none ↔ a ∉ keyed.names := by
  induction keyed with
  | nil => simp [Keyed.find?, Keyed.names]
  | cons p rest ih =>
    rw [Keyed.find?, Keyed.names, List.map_cons, List.mem_cons, not_or]
    by_cases h : p.1 = a
    · rw [if_pos h]
      exact iff_of_false (by simp) fun hno => hno.1 h.symm
    · rw [if_neg h, ih]
      exact (and_iff_right (Ne.symm h)).symm

/-- What is found under a key is an entry. -/
theorem Keyed.mem_of_find? {β : Type} {keyed : Keyed α β} {value : β} (h : keyed.find? a = some value) :
    (a, value) ∈ keyed := by
  induction keyed with
  | nil => cases h
  | cons p rest ih =>
    unfold find? at h
    split at h
    · rename_i heq
      obtain rfl := Option.some.inj h
      exact heq ▸ List.mem_cons_self
    · exact List.mem_cons_of_mem _ (ih h)

theorem Terms.coefficient_of_not_mem {terms : Terms} {name : String} (h : name ∉ terms.names) :
    terms.coefficient name = 0 := by
  rw [coefficient, Keyed.find?_eq_none_iff.mpr h]
  rfl

end Coefficients

/-! ## Writes -/

section Writes

namespace Keyed

variable {β γ : Type} {keyed : Keyed α β} {key k : α} {value : β}

/-- What is written is there. -/
theorem mem_put_self (keyed : Keyed α β) (key : α) (value : β) : (key, value) ∈ keyed.put key value := by
  induction keyed with
  | nil => exact List.mem_cons_self
  | cons p rest ih =>
    unfold put
    split
    · exact List.mem_cons_self
    · exact List.mem_cons_of_mem _ ih

theorem mem_or_eq_of_mem_put {p : α × β} (h : p ∈ keyed.put key value) : p ∈ keyed ∨ p = (key, value) := by
  induction keyed with
  | nil => exact Or.inr (List.mem_singleton.mp h)
  | cons q rest ih =>
    unfold put at h
    split at h
    · exact (List.mem_cons.mp h).symm.imp (List.mem_cons_of_mem _) id
    · rcases List.mem_cons.mp h with rfl | hrest
      · exact Or.inl List.mem_cons_self
      · exact (ih hrest).imp (List.mem_cons_of_mem _) id

theorem nodup_put (h : keyed.names.Nodup) (key : α) (value : β) : (keyed.put key value).names.Nodup := by
  rw [names_put]
  split
  · exact h
  · rename_i hkey
    exact List.concat_eq_append ▸ h.concat hkey

theorem mem_names_put : k ∈ (keyed.put key value).names ↔ k ∈ keyed.names ∨ k = key := by
  rw [names_put]
  split
  · rename_i hkey
    exact ⟨Or.inl, fun h => h.elim id fun heq => heq ▸ hkey⟩
  · rw [List.mem_append, List.mem_singleton]

/-- The keyed list after some writes. -/
def writes (pairs : List (α × β)) (keyed : Keyed α β) : Keyed α β :=
  pairs.foldl (fun keyed p => keyed.put p.1 p.2) keyed

theorem ofPairs_eq_writes (pairs : List (α × β)) : ofPairs pairs = writes pairs [] := rfl

theorem writes_append (pairs pairs' : List (α × β)) (keyed : Keyed α β) :
    writes (pairs ++ pairs') keyed = writes pairs' (writes pairs keyed) :=
  List.foldl_append

/-- After some writes a key has the value that was written last, or the one it had before. -/
theorem find?_writes (pairs : List (α × β)) (keyed : Keyed α β) (key : α) :
    (writes pairs keyed).find? key =
      ((pairs.reverse.find? fun p => decide (p.1 = key)).map Prod.snd).or (keyed.find? key) := by
  unfold writes
  induction pairs generalizing keyed with
  | nil => rfl
  | cons p rest ih =>
    rw [List.foldl_cons, ih, List.reverse_cons, List.find?_append]
    cases rest.reverse.find? fun p => decide (p.1 = key) with
    | some q => rfl
    | none =>
      by_cases h : p.1 = key
      · rw [← h, find?_put_self]
        simp
      · rw [find?_put_of_ne keyed h]
        simp [h]

/-- Of writes of a value for each of some keys, other keys know nothing. -/
theorem find?_writes_map_of_not_mem {keys : List α} (h : key ∉ keys) (f : α → β) (keyed : Keyed α β) :
    (writes (keys.map fun k => (k, f k)) keyed).find? key = keyed.find? key := by
  rw [find?_writes, List.find?_eq_none.mpr]
  · rfl
  · rintro ⟨k, b⟩ hmem
    obtain ⟨k', hk', heq⟩ := List.mem_map.mp (List.mem_reverse.mp hmem)
    obtain ⟨rfl, -⟩ := Prod.mk.inj heq
    exact fun hkey => h (of_decide_eq_true hkey ▸ hk')

/-- After writes of a value for each of some keys these have their values. -/
theorem find?_writes_map_of_mem {keys : List α} (h : key ∈ keys) (f : α → β) (keyed : Keyed α β) :
    (writes (keys.map fun k => (k, f k)) keyed).find? key = some (f key) := by
  unfold writes
  induction keys generalizing keyed with
  | nil => exact absurd h List.not_mem_nil
  | cons k rest ih =>
    rw [List.map_cons, List.foldl_cons]
    by_cases hrest : key ∈ rest
    · exact ih hrest _
    · obtain rfl := (List.mem_cons.mp h).resolve_right hrest
      exact (find?_writes_map_of_not_mem hrest f _).trans (find?_put_self keyed key _)

theorem nodup_writes (h : keyed.names.Nodup) (pairs : List (α × β)) : (writes pairs keyed).names.Nodup := by
  unfold writes
  induction pairs generalizing keyed with
  | nil => exact h
  | cons p rest ih => exact ih (nodup_put h _ _)

/-- Writes of the same keys leave the same keys. -/
theorem names_writes_congr {pairs : List (α × β)} {pairs' : List (α × γ)} {keyed' : Keyed α γ}
    (hpairs : pairs.map Prod.fst = pairs'.map Prod.fst) (h : keyed.names = keyed'.names) :
    (writes pairs keyed).names = (writes pairs' keyed').names := by
  unfold writes
  induction pairs generalizing pairs' keyed keyed' with
  | nil =>
    obtain rfl := List.map_eq_nil_iff.mp hpairs.symm
    exact h
  | cons p rest ih =>
    obtain ⟨p', rest', rfl⟩ : ∃ p' rest', pairs' = p' :: rest' := by
      cases pairs' with
      | nil => cases hpairs
      | cons p' rest' => exact ⟨p', rest', rfl⟩
    rw [List.map_cons, List.map_cons, List.cons.injEq] at hpairs
    rw [List.foldl_cons, List.foldl_cons]
    refine ih hpairs.2 ?_
    rw [names_put, names_put, h, hpairs.1]

end Keyed

end Writes

/-! ## Texts of numbers -/

section Texts

/-- Different natural numbers have different texts. -/
theorem toString_nat_injective : Function.Injective (toString : Nat → String) := by
  intro m n h
  rw [Nat.toString_eq_ofList_toDigits, Nat.toString_eq_ofList_toDigits, String.ofList_inj] at h
  rw [← Nat.ofDigitChars_ten_toDigits (n := m), h, Nat.ofDigitChars_ten_toDigits]

theorem toString_nat_ne_minus (n : Nat) (s : String) : toString n ≠ "-" ++ s := by
  intro h
  rw [Nat.toString_eq_ofList_toDigits] at h
  have hmem : '-' ∈ Nat.toDigits 10 n := by
    rw [← String.toList_ofList (l := Nat.toDigits 10 n), h, String.toList_append]
    exact List.mem_append_left _ List.mem_cons_self
  exact absurd (Nat.isDigit_of_mem_toDigits (by decide) (by decide) hmem) (by decide)

/-- Different integers have different texts: only the text of a negative one starts with a sign. -/
theorem toString_int_injective : Function.Injective (toString : Int → String) := by
  intro i j h
  cases i with
  | ofNat m =>
    cases j with
    | ofNat n => exact congrArg Int.ofNat (toString_nat_injective h)
    | negSucc n => exact absurd h (toString_nat_ne_minus m _)
  | negSucc m =>
    cases j with
    | ofNat n => exact absurd h.symm (toString_nat_ne_minus n _)
    | negSucc n =>
      have hdigits : toString m.succ = toString n.succ := (String.append_right_inj _).mp h
      rw [Nat.succ.inj (toString_nat_injective hdigits)]

end Texts

end ExactLP
