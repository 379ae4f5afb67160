import ExactLP.Text.Printed

/-!
# Text.Sequences — what a terminal does not show

Two kinds of escape sequences take no place on a terminal.  A control sequence is `ESC [`, parameters,
intermediates and one final character, and shows nothing.  A hyperlink is `ESC ] 8 ;`, parameters, `;`,
a target, `ESC \`, a text and the closing `ESC ] 8 ; ; ESC \`, and shows its text.

* `sequence?`: the sequence at the start of a text.
* `shown`: a text as a terminal shows it.
-/

namespace ExactLP.Text

/-- The escape character. -/
def esc : Char := '\x1b'

/-- The character lies between two code points. -/
def within (first last : Nat) (c : Char) : Bool := first ≤ c.toNat && c.toNat ≤ last

/-- What follows a control sequence, given what follows its `ESC [`. -/
def afterControl? (cs : List Char) : Option (List Char) :=
  match (cs.dropWhile (within 0x30 0x3F)).dropWhile (within 0x20 0x2F) with
  | c :: rest => if within 0x40 0x7E c then some rest else none
  | [] => none

/-- Letters, digits and the underscore; beyond ASCII all printing characters count as letters. -/
def isWord (c : Char) : Bool := c.isAlphanum || c == '_' || (0x80 ≤ c.toNat && isPrinted c)

/-- How far the parameters of a hyperlink are read. -/
inductive Parameter where
  | start
  | key
  | equals
  | value (long : Bool)

/-- Reads one character of the parameters `key=value`, which colons may part.  Without a colon the last
part of a value may be the next key, if something is left for the value. -/
def Parameter.next? : Parameter → Char → Option Parameter
  | start, c => if isWord c then some key else none
  | key, c => if c = '=' then some equals else if isWord c then some key else none
  | equals, c => if isWord c then some (value false) else none
  | value long, c =>
    if c = ':' then some start
    else if c = '=' then if long then some equals else none
    else if isWord c then some (value true) else none

/-- The parameters may end here. -/
def Parameter.ends : Parameter → Bool
  | start | value _ => true
  | key | equals => false

/-- The text of a hyperlink and what follows it, given what follows its `ESC ] 8 ;`. -/
def hyperlink? (cs : List Char) : Option (List Char × List Char) := do
  let state ← (cs.takeWhile (· != ';')).foldlM Parameter.next? .start
  let target ← [';'].isPrefixOf? (cs.dropWhile (· != ';'))
  let link ← [esc, '\\'].isPrefixOf? (target.dropWhile (· != esc))
  let rest ← [esc, ']', '8', ';', ';', esc, '\\'].isPrefixOf? (link.dropWhile (· != esc))
  let text := link.takeWhile (· != esc)
  if state.ends && target.head? != some esc && !text.isEmpty then some (text, rest) else none

/-- What the sequence at the start of a text shows, and the number of its characters. -/
def sequence? (cs : List Char) : Option (List Char × Nat) :=
  match cs with
  | '\x1b' :: '[' :: after => (afterControl? after).map fun rest => ([], cs.length - rest.length)
  | '\x1b' :: ']' :: '8' :: ';' :: after =>
    (hyperlink? after).map fun (text, rest) => (text, cs.length - rest.length)
  | _ => none

/-- A text as it is shown, after leaving out its first `skip` characters. -/
def shownFrom : Nat → List Char → List Char
  | _, [] => []
  | skip + 1, _ :: rest => shownFrom skip rest
  | 0, c :: rest =>
    match sequence? (c :: rest) with
    | some (text, size) => text ++ shownFrom (size - 1) rest
    | none => c :: shownFrom 0 rest

/-- A text as a terminal shows it. -/
def shown (cs : List Char) : List Char := shownFrom 0 cs

/-- The text holds an escape sequence. -/
def hasSequence : List Char → Bool
  | [] => false
  | c :: rest => (sequence? (c :: rest)).isSome || hasSequence rest

end ExactLP.Text
