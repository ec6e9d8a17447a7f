import ConfigExpr.Span
import ConfigExpr.Text.Lines
import ConfigExpr.Text.Width

/-!
# Lines of a source

A source text as an excerpt shows it: its lines with their numbers and byte offsets, and each line
as cells, which say where a character stands in the source and how wide it is on the screen.
-/

namespace ConfigExpr

structure SourceLine where
  /-- The number of the line, from one. -/
  number : Nat
  /-- The byte offset at which the line starts. -/
  start : Nat
  /-- The characters of the line without its line feed. -/
  text : List Char

namespace SourceLine

/-- Numbers lines and adds up their offsets, a line feed after each. -/
def ofPieces (k start : Nat) : List (List Char) → List SourceLine
  | [] => []
  | text :: others => ⟨k, start, text⟩ :: ofPieces (k + 1) (start + bytes text + 1) others

def ofSource (source : List Char) : List SourceLine :=
  ofPieces 1 0 (Text.pieces source)

/-- The last line that starts at or before an offset. -/
def at? (lines : List SourceLine) (offset : Nat) : Option SourceLine :=
  (lines.filter (·.start ≤ offset)).getLast?

/-- The text without the carriage returns and null characters it ends in. -/
def shown (line : SourceLine) : List Char :=
  (line.text.reverse.dropWhile fun c => c == '\r' || c.toNat == 0).reverse

/-- The column of an offset, from one: it counts the characters that end at or before it. -/
def column (line : SourceLine) (offset : Nat) : Nat :=
  count 0 line.text + 1
where
  count (before : Nat) : List Char → Nat
    | [] => 0
    | c :: cs =>
      let after := before + c.utf8Size
      if line.start + after ≤ offset then count after cs + 1 else 0

end SourceLine

/-- A character in a line. -/
structure Cell where
  /-- Its byte offset in the line. -/
  offset : Nat
  /-- Its length in bytes. -/
  size : Nat
  /-- The columns it takes. -/
  width : Nat
  /-- What is drawn for it. -/
  drawn : List Char

namespace Cell

/-- A tab reaches to the next multiple of four columns and is drawn as spaces. -/
def ofText (offset column : Nat) : List Char → List Cell
  | [] => []
  | c :: cs =>
    let cell : Cell :=
      if c = '\t' then ⟨offset, 1, 4 - column % 4, List.replicate (4 - column % 4) ' '⟩
      else ⟨offset, c.utf8Size, Text.width c, [c]⟩
    cell :: ofText (offset + cell.size) (column + cell.width) cs

end Cell

def SourceLine.cells (line : SourceLine) : List Cell :=
  Cell.ofText 0 0 line.shown

end ConfigExpr
