import ExactLP.Text.Lines
import ExactLP.Text.Sequences

/-!
# Text.Columns — plain text tables

Every cell is set to the right of its column and columns are parted by two blanks.  A column is as
wide as its widest cell, and at least two wider than its header.  With headers the table is the header
line, a rule and the rows; without them the rows stand between two rules.  A row that begins with the
cell `ruleMark` is a rule.

Cells may have several lines, which begin at the top of their row, and escape sequences take no place.
Either is looked for once, over the whole table (`Layout.ofTexts`).
-/

namespace ExactLP.Text

/-- The greatest of some widths. -/
def widest (widths : List Nat) : Nat := widths.foldl (fun w n => if w < n then n else w) 0

/-- The characters `cs`, which take `size` places, set to the right in `width` places. -/
def setRight (width size : Nat) (cs : List Char) : List Char :=
  List.replicate (width - size) ' ' ++ cs

/-- Cells parted by two blanks, without blanks at the end of the line. -/
def joinCells (cells : List (List Char)) : List Char :=
  trimEnd (List.intercalate [' ', ' '] cells)

/-- The dashes below and above the columns. -/
def ruleLine (widths : List Nat) : List Char :=
  joinCells (widths.map fun w => List.replicate w '-')

/-- The cell that makes its row a rule. -/
def ruleMark : List Char := ['\x01']

/-- What is heeded in the cells of a table. -/
structure Layout where
  /-- Escape sequences take no place. -/
  sequences : Bool
  /-- Cells have several lines. -/
  several : Bool
deriving DecidableEq

namespace Layout

/-- What the texts of a table ask for. -/
def ofTexts (texts : List (List Char)) : Layout :=
  let whole := List.intercalate ['\t'] texts
  ⟨hasSequence whole, whole.any isReturn⟩

/-- The places that one line takes. -/
def lineWidth (layout : Layout) (cs : List Char) : Nat :=
  if layout.sequences then (shown cs).length else cs.length

/-- The parts of a cell that are measured. -/
def parts (layout : Layout) (cs : List Char) : List (List Char) :=
  if layout.several then pieces cs else [cs]

/-- The places that a cell takes. -/
def width (layout : Layout) (cs : List Char) : Nat :=
  widest ((layout.parts cs).map layout.lineWidth)

/-- One line set to the right. -/
def set (layout : Layout) (width : Nat) (cs : List Char) : List Char :=
  setRight width (layout.lineWidth cs) cs

/-- The lines of a cell, set to the right.  Where escape sequences are heeded, the places that a line
makes up for are those of the piece at its position, and lines beyond the pieces are left out. -/
def cellLines (layout : Layout) (width : Nat) (cs : List Char) : List (List Char) :=
  if !layout.several then [layout.set width cs]
  else if !layout.sequences then (lines cs).map (layout.set width)
  else List.zipWith (fun line piece =>
    setRight (width + piece.length - layout.lineWidth piece) line.length line) (lines cs) (pieces cs)

/-- The lines of a header, set to the right. -/
def headerLines (layout : Layout) (width : Nat) (cs : List Char) : List (List Char) :=
  if layout.several then lines (List.intercalate ['\n'] ((pieces cs).map (layout.set width)))
  else [layout.set width cs]

end Layout

/-- The width of each column: at least `least`, and as wide as `measure` asks in every row. -/
def columnWidths {α : Type} (measure : α → Nat) (least : List Nat) (rows : List (List α)) : List Nat :=
  rows.foldl (fun widths row =>
    List.zipWith (fun w cell => if w < measure cell then measure cell else w) widths row) least

/-- The lines of a row whose cells have several lines: missing ones are blank. -/
def rowLines (widths : List Nat) (cells : List (List (List Char))) : List (List Char) :=
  (List.range (widest (cells.map List.length))).map fun i =>
    joinCells (List.zipWith (fun w cell => cell.getD i (List.replicate w ' ')) widths cells)

/-- The row is a rule: one of its first two cells says so. -/
def isRule (row : List (List Char)) : Bool := (row.take 2).contains ruleMark

/-- The lines of a table.  Missing headers are blank ones on the left, and headers without a column
are left out. -/
def tableLines (headers : List String) (rows : List (List String)) : List (List Char) :=
  let rows := rows.map (·.map String.toList)
  let count := (rows.headD []).length
  let heads := List.replicate (count - headers.length) [] ++ headers.map String.toList
  let data := rows.filter fun row => !isRule row
  let layout := Layout.ofTexts ((if headers.isEmpty then [] else heads) ++ data.flatten)
  let heads := if data.isEmpty then heads else heads.take count
  let least :=
    if !headers.isEmpty then heads.map fun h => layout.width h + 2
    else if data.isEmpty then [] else List.replicate count 0
  let widths := columnWidths (fun cell => layout.width (trim cell)) least data
  let setRow (row : List (List Char)) := List.zipWith layout.cellLines widths (row.map trim)
  let widths := columnWidths (fun cell => widest (cell.map layout.lineWidth)) least (data.map setRow)
  let rule := ruleLine widths
  let body := rows.flatMap fun row =>
    let cells := setRow row
    if isRule row || (!layout.several && isRule cells.flatten) then [rule] else rowLines widths cells
  if headers.isEmpty then rule :: body ++ [rule]
  else rowLines widths (List.zipWith layout.headerLines widths heads) ++ rule :: body

/-- A table as one text, its lines parted by line feeds. -/
def table (headers : List String) (rows : List (List String)) : String :=
  String.ofList (List.intercalate ['\n'] (tableLines headers rows))

end ExactLP.Text
