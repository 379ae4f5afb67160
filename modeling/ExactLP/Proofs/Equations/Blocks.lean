import ExactLP.Equations
import Mathlib.Data.List.GetD

/-!
# Proofs.Equations.Blocks — positions in a flattened list

The auxiliary columns of the rows stand in blocks, one block for each row, one after the other.  Entry `k` of
block `i` stands at position `blockStart blocks i + k` of the whole.

* `getElem?_flatten`: what stands at such a position.
* `exists_block`: every position is of that kind.
* `blockStart_congr`: the positions depend on the lengths of the blocks only.
-/

namespace ExactLP

variable {α β : Type} {blocks : List (List α)} {own : List α} {i k p : Nat}

/-- Where block `i` starts. -/
def blockStart (blocks : List (List α)) (i : Nat) : Nat :=
  (blocks.take i).flatten.length

theorem blockStart_zero (blocks : List (List α)) : blockStart blocks 0 = 0 := rfl

theorem blockStart_cons_succ (own : List α) (blocks : List (List α)) (i : Nat) :
    blockStart (own :: blocks) (i + 1) = own.length + blockStart blocks i := by
  rw [blockStart, List.take_succ_cons, List.flatten_cons, List.length_append, blockStart]

/-- A flattened list around one of its blocks. -/
theorem flatten_eq_around (h : blocks[i]? = some own) :
    blocks.flatten = (blocks.take i).flatten ++ (own ++ (blocks.drop (i + 1)).flatten) := by
  obtain ⟨hlt, rfl⟩ := List.getElem?_eq_some_iff.mp h
  have hsplit := congrArg List.flatten (List.take_append_drop i blocks)
  rw [List.drop_eq_getElem_cons hlt, List.flatten_append, List.flatten_cons] at hsplit
  exact hsplit.symm

theorem getElem?_flatten (h : blocks[i]? = some own) (hk : k < own.length) :
    blocks.flatten[blockStart blocks i + k]? = own[k]? := by
  rw [flatten_eq_around h, blockStart, List.getElem?_append_right (Nat.le_add_right _ _),
    Nat.add_sub_cancel_left, List.getElem?_append_left hk]

theorem blockStart_add_lt (h : blocks[i]? = some own) (hk : k < own.length) :
    blockStart blocks i + k < blocks.flatten.length := by
  have hget := getElem?_flatten h hk
  rw [List.getElem?_eq_getElem hk] at hget
  exact (List.getElem?_eq_some_iff.mp hget).1

theorem exists_block (h : p < blocks.flatten.length) :
    ∃ i own k, blocks[i]? = some own ∧ k < own.length ∧ p = blockStart blocks i + k := by
  induction blocks generalizing p with
  | nil => exact absurd h (by simp)
  | cons first rest ih =>
    rw [List.flatten_cons, List.length_append] at h
    by_cases hp : p < first.length
    · exact ⟨0, first, p, rfl, hp, by rw [blockStart_zero, Nat.zero_add]⟩
    · obtain ⟨i, own, k, hi, hk, heq⟩ := ih (p := p - first.length) (by omega)
      refine ⟨i + 1, own, k, hi, hk, ?_⟩
      rw [blockStart_cons_succ]
      omega

theorem blockStart_congr {blocks' : List (List β)}
    (h : blocks.map List.length = blocks'.map List.length) (i : Nat) :
    blockStart blocks i = blockStart blocks' i := by
  rw [blockStart, blockStart, List.length_flatten, List.length_flatten, List.map_take, List.map_take, h]

theorem blockStart_mono (h : i ≤ k) : blockStart blocks i ≤ blockStart blocks k := by
  rw [blockStart, blockStart, ← List.take_append_drop i (blocks.take k), List.take_take, Nat.min_eq_left h,
    List.flatten_append, List.length_append]
  exact Nat.le_add_right _ _

/-- The entries of a block come before the blocks behind it. -/
theorem blockStart_add_lt_blockStart (h : blocks[i]? = some own) (hp : p < own.length) (hik : i < k) :
    blockStart blocks i + p < blockStart blocks k := by
  have hnext : blockStart blocks (i + 1) = blockStart blocks i + own.length := by
    rw [blockStart, blockStart, List.take_add_one, h, List.flatten_append, List.length_append]
    exact congrArg (_ + ·) (by simp)
  have hmono : blockStart blocks (i + 1) ≤ blockStart blocks k := blockStart_mono hik
  omega

theorem length_flatten_congr {blocks' : List (List β)}
    (h : blocks.map List.length = blocks'.map List.length) :
    blocks.flatten.length = blocks'.flatten.length := by
  rw [List.length_flatten, List.length_flatten, h]

/-- The basic position of a row is the last one of its block. -/
theorem Equations.getElem?_basicPositions {aux : List (List (Column × Rat))} {own : List (Column × Rat)}
    (start : Nat) (h : aux[i]? = some own) :
    (basicPositions start aux)[i]? = some (start + (blockStart aux i + own.length) - 1) := by
  induction aux generalizing start i with
  | nil => exact absurd h (by simp)
  | cons first rest ih =>
    cases i with
    | zero =>
      have hfirst : first = own := by simpa using h
      rw [hfirst, blockStart_zero, Nat.zero_add]
      rfl
    | succ i =>
      rw [basicPositions, List.getElem?_cons_succ, ih (start + first.length) (by simpa using h),
        blockStart_cons_succ]
      congr 1
      omega

theorem Equations.length_basicPositions (start : Nat) (aux : List (List (Column × Rat))) :
    (basicPositions start aux).length = aux.length := by
  induction aux generalizing start with
  | nil => rfl
  | cons first rest ih => rw [basicPositions, List.length_cons, ih, List.length_cons]

end ExactLP
