import ExactLP.Number.Operand

/-!
# Dense — arrays of operands with a shape and an element type

Nested lists of operands form an array when all lists at one depth have one length.  Its elements take
one common type: a float among integers and truth values makes all of them floats, an integer among
truth values makes all of them integers.  An empty array holds floats.

* `Dense.ofNested`: the array of a nested list.
* `Dense.isNumeric`, `Dense.isFinite`: what is asked of coefficients.
-/

namespace ExactLP

/-- Operands in lists of any depth. -/
inductive Nested where
  | leaf (x : Operand)
  | list (xs : List Nested)

/-- What the elements of an array are. -/
inductive ElementType where
  | truth
  /-- Integers of 64 bits with a sign. -/
  | signed
  /-- Integers of 64 bits without a sign. -/
  | unsigned
  | float
  | text
  | mixed
deriving Repr, DecidableEq

namespace ElementType

/-- The type of one element. -/
def ofOperand : Operand → ElementType
  | .bool _ => truth
  | .int n =>
    if -0x8000000000000000 ≤ n ∧ n < 0x8000000000000000 then signed
    else if 0 ≤ n ∧ n < 0x10000000000000000 then unsigned else mixed
  | .float _ => float
  | .other kind => if kind = "str" then text else mixed
  | .fraction _ _ | .ratio _ => mixed

/-- The common type of two. -/
def join (a b : ElementType) : ElementType :=
  if a = b then a
  else match a, b with
    | mixed, _ | _, mixed => mixed
    | text, _ | _, text => text
    | float, _ | _, float => float
    | truth, other | other, truth => other
    | _, _ => float

/-- The types that count as numbers. -/
def isNumeric : ElementType → Bool
  | signed | unsigned | float => true
  | _ => false

/-- An element as a member of a type that all elements share. -/
def convert (type : ElementType) (x : Operand) : Operand :=
  match type, x with
  | float, .bool b => .float (if b then 1 else 0)
  | float, .int n => .float (Float.ofInt n)
  | signed, x | unsigned, x => x.integer?.elim x .int
  | text, _ => .other "str"
  | _, x => x

end ElementType

/-- An array: the length along each dimension, and the elements, the last dimension running fastest. -/
structure Dense where
  shape : List Nat
  type : ElementType
  elements : List Operand

namespace Nested

mutual

/-- The elements in order. -/
def leaves : Nested → List Operand
  | leaf x => [x]
  | list xs => leavesOfList xs

def leavesOfList : List Nested → List Operand
  | [] => []
  | x :: rest => leaves x ++ leavesOfList rest

end

mutual

/-- The lengths along the dimensions, where all lists at one depth have one length. -/
def shape? : Nested → Option (List Nat)
  | leaf _ => some []
  | list xs => (commonShape? xs).map fun s => xs.length :: s.getD []

/-- The shape that all of some nested lists have; no lists have any shape. -/
def commonShape? : List Nested → Option (Option (List Nat))
  | [] => some none
  | x :: rest =>
    match shape? x, commonShape? rest with
    | some s, some none => some (some s)
    | some s, some (some t) => if s = t then some (some s) else none
    | _, _ => none

end

end Nested

namespace Dense

/-- The array of a nested list, unless its lists are uneven. -/
def ofNested (x : Nested) : Option Dense :=
  match x.shape? with
  | none => none
  | some shape =>
    let types := x.leaves.map ElementType.ofOperand
    let type := match types with
      | [] => .float
      | first :: rest => rest.foldl ElementType.join first
    some ⟨shape, type, x.leaves.map type.convert⟩

def dimension (a : Dense) : Nat := a.shape.length

/-- The length along the first dimension. -/
def size (a : Dense) : Nat := a.shape.headD 0

def isNumeric (a : Dense) : Bool := a.type.isNumeric

/-- No element is a NaN or an infinity. -/
def isFinite (a : Dense) : Bool :=
  a.elements.all fun
    | .float x => x.isFinite
    | _ => true

/-- The first `count` pieces of `width` elements. -/
def pieces (width : Nat) : Nat → List Operand → List (List Operand)
  | 0, _ => []
  | count + 1, xs => xs.take width :: pieces width count (xs.drop width)

/-- The rows of an array of two dimensions. -/
def rows (a : Dense) : List (List Operand) :=
  pieces (a.shape.getD 1 0) a.size a.elements

end Dense

end ExactLP
