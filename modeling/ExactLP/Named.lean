/-!
# Named — values by key, in order of first arrival

A *keyed list* keeps pairs in the order in which their keys first arrived.  `put` writes to a key: a
key that is present keeps its place and takes the new value, a new key goes to the end.  A *named list*
has names for keys.

* `find?_put_self`, `find?_put_of_ne`: what is read after a write.
* `names_put`: the keys after a write.
-/

namespace ExactLP

/-- Pairs of a key and a value, each key once, in order of first arrival. -/
abbrev Keyed (κ α : Type) := List (κ × α)

/-- Values by name. -/
abbrev Named (α : Type) := Keyed String α

namespace Keyed

variable {κ α β : Type}

/-- The keys, in order. -/
def names (keyed : Keyed κ α) : List κ :=
  keyed.map Prod.fst

/-- Every value converted, in order, up to the first that cannot be. -/
def convert {m : Type → Type} [Monad m] (f : α → m β) (keyed : Keyed κ α) : m (Keyed κ β) :=
  keyed.mapM fun p => do return (p.1, ← f p.2)

variable [DecidableEq κ]

/-- The value under a key. -/
def find? : Keyed κ α → κ → Option α
  | [], _ => none
  | (k, v) :: rest, key => if k = key then some v else find? rest key

/-- Writes a value under a key. -/
def put : Keyed κ α → κ → α → Keyed κ α
  | [], key, value => [(key, value)]
  | (k, v) :: rest, key, value =>
    if k = key then (key, value) :: rest else (k, v) :: put rest key value

/-- The keyed list that a sequence of writes leaves. -/
def ofPairs (pairs : List (κ × α)) : Keyed κ α :=
  pairs.foldl (fun keyed p => keyed.put p.1 p.2) []

theorem find?_put_self (keyed : Keyed κ α) (key : κ) (value : α) :
    (keyed.put key value).find? key = some value := by
  induction keyed with
  | nil => simp [put, find?]
  | cons p rest ih => simp only [put]; split <;> simp_all [find?]

theorem find?_put_of_ne (keyed : Keyed κ α) {key other : κ} (h : key ≠ other) (value : α) :
    (keyed.put key value).find? other = keyed.find? other := by
  induction keyed with
  | nil => simp [put, find?, h]
  | cons p rest ih =>
    simp only [put]
    split
    · rename_i hp
      simp [find?, h, hp ▸ h]
    · simp [find?, ih]

/-- A write adds its key at the end, unless it is there. -/
theorem names_put (keyed : Keyed κ α) (key : κ) (value : α) :
    (keyed.put key value).names = if key ∈ keyed.names then keyed.names else keyed.names ++ [key] := by
  induction keyed with
  | nil => simp [put, names]
  | cons p rest ih => grind [put, names]

end Keyed

/-- The first occurrences of the elements of a list, in order. -/
def firstOccurrences {α : Type} [DecidableEq α] (xs : List α) : List α :=
  xs.foldl (fun seen x => if x ∈ seen then seen else seen ++ [x]) []

end ExactLP
