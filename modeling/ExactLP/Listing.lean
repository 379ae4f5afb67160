import ExactLP.Standard.Form

/-!
# Listing — a problem as plain text

The text of a problem: the objective, the rows of its standard form, and a line for each integer,
binary and unrestricted variable.  Unrestricted variables are not split but declared free, and
condition binaries are written with another stem.
-/

namespace ExactLP.Listing

/-- How the names of condition binaries start in a listing. -/
def stem : String := "__y"

/-- The name under which a variable is listed. -/
def listedName (condition : List String) (name : String) : String :=
  if condition.contains name then stem ++ String.ofList (name.toList.drop conditionStem.length) else name

/-- A form over the listed names. -/
def listedTerms (condition : List String) (terms : Terms) : Terms :=
  Keyed.ofPairs (terms.map fun (name, c) => (listedName condition name, c))

/-- The comparator of a listed row: its first character. -/
def comparatorText (cmp : Comparator) : String := String.ofList (cmp.text.toList.take 1)

/-- The line of a row. -/
def rowLine (condition : List String) (r : Row) : Except NumberFault String :=
  return s!"{← (listedTerms condition r.terms).written} {comparatorText r.cmp} {← numberText r.rhs}"

/-- The word that starts a listing. -/
def goalWord : Goal → String
  | .maximize => "MAX"
  | .minimize => "MIN"

/-- The lines that declare variables: integers that are not binary, binaries once each, and
unrestricted variables. -/
def declarations (p : Problem) (condition : List String) : List String :=
  let binary := firstOccurrences (p.binary ++ condition)
  (p.integer.filter fun name => !binary.contains name).map (fun name => s!"GIN {name}") ++
    binary.map (fun name => s!"INT {listedName condition name}") ++
    p.unrestricted.map fun name => s!"FREE {name}"

/-- The lines of a problem. -/
def lines (p : Problem) : Except Fault (List String) := do
  let form ← p.standardForm false
  let objective ← p.objective.written
  let rows ← form.rows.mapM fun r => (rowLine form.condition r : Except Fault String)
  return s!"{goalWord p.goal} {objective}" :: "SUBJECT TO" :: rows ++
    "END" :: declarations p form.condition

/-- The text of a problem. -/
def text (p : Problem) : Except Fault String :=
  return "\n".intercalate (← lines p)

end ExactLP.Listing
