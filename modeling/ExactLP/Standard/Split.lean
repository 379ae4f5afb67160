import ExactLP.Model.Problem

/-!
# Standard.Split — unrestricted variables as differences

A variable without a sign is replaced by the difference of two nonnegative parts, whose names are its
own with `+` and `-` behind.  `joinParts` reads an assignment of the parts back.
-/

namespace ExactLP

/-- The name of the nonnegative part that is added. -/
def positivePart (name : String) : String := name ++ "+"

/-- The name of the nonnegative part that is subtracted. -/
def negativePart (name : String) : String := name ++ "-"

/-- A form with `x+ - x-` in place of every `x` that is split. -/
def Terms.split (terms : Terms) (split : List String) : Terms :=
  terms.foldl (fun result (name, c) =>
    if name ∈ split then (result.put (positivePart name) c).put (negativePart name) (-c)
    else result.put name c) []

/-- A row over the parts of the variables that are split. -/
def Row.split (r : Row) (split : List String) : Row :=
  if r.names.any (· ∈ split) then r.withTerms (r.terms.split split) else r

/-- The caller's assignment that an assignment of parts stands for. -/
def joinParts (split : List String) (z : Assignment) : Assignment := fun name =>
  if name ∈ split then z (positivePart name) - z (negativePart name) else z name

end ExactLP
