import ConfigExpr.Diagnostic.Source
import ConfigExpr.Text.Blank

/-!
# Excerpts

An excerpt shows the place of an error: the lines of the source that a span covers, each with its
number, and marks that point at the span. A span in one line is underlined; a span over several is
enclosed by a bracket in the gutter, and of the lines between the first and the last only the
nearest are shown.
-/

namespace ConfigExpr

/-- A place in a source with a text for it. -/
structure Location where
  source : String
  /-- The name of the source, empty for one without a name. -/
  path : String
  span : Span
  /-- The text beside the marks, empty for none. -/
  label : String

namespace Excerpt

/-- How far line numbers are indented. -/
structure Margin where
  width : Nat

namespace Margin

def blank (m : Margin) : String :=
  String.ofList (List.replicate (m.width + 1) ' ')

/-- A line number, right-aligned, with the rule after it. -/
def number (m : Margin) (n : Nat) : String :=
  let digits := Nat.toDigits 10 n
  String.ofList (List.replicate (m.width - digits.length) ' ' ++ digits) ++ " │"

end Margin

/-- A label stands a space after the marks. -/
def afterMarks (label : String) : String :=
  if label.isEmpty then "" else " " ++ label

def drawn (cells : List Cell) : String :=
  String.ofList (cells.flatMap (·.drawn))

/-- Dashes under the cells that start before a byte offset. -/
def dashes (cells : List Cell) (stop : Nat) : String :=
  String.ofList <|
    (cells.takeWhile (·.offset < stop)).flatMap fun cell => List.replicate cell.width '─'

/-- The marks under a single line: carets under the cells in a range of bytes, spaces before them.
One more cell after the end of the line can be marked. -/
def carets (line : SourceLine) (first last : Nat) : String :=
  let cells := line.cells ++ [⟨bytes line.shown, 1, 1, [' ']⟩]
  String.ofList <| cells.flatMap fun cell =>
    if first < cell.offset + cell.size ∧ cell.offset < last then List.replicate cell.width '^'
    else if cell.offset < last then List.replicate cell.width ' '
    else []

/-- One line of the source and the marks under it. -/
def singleLine (m : Margin) (line : SourceLine) (location : Location) : List String :=
  let first := location.span.start - line.start
  let last := max (location.span.stop - line.start) (first + 1)
  [m.number line.number ++ " " ++ drawn line.cells,
   m.blank ++ "│ " ++ carets line first last ++ afterMarks location.label]

/-- The byte length of the blank characters that a line begins with. -/
def indentBytes (line : SourceLine) : Nat :=
  bytes (line.shown.takeWhile Text.isBlank)

/-- The first of several lines, with the upper end of the bracket beside it or, where other text
precedes the span, under it. -/
def firstLine (m : Margin) (line : SourceLine) (location : Location) : List String :=
  let first := location.span.start - line.start
  if first ≤ indentBytes line then [m.number line.number ++ " ╭ " ++ drawn line.cells]
  else
    [m.number line.number ++ "   " ++ drawn line.cells,
     m.blank ++ "│ ╭" ++ dashes line.cells (first + 1) ++ "^"]

/-- A line inside the bracket. -/
def innerLine (m : Margin) (line : SourceLine) : String :=
  m.number line.number ++ " │ " ++ drawn line.cells

/-- The lines between the first and the last. Three after the first and one before the last are
shown; more than one that is left out shows as a dot. -/
def between (m : Margin) (lines : List SourceLine) : List String :=
  if lines.length ≤ 5 then lines.map (innerLine m)
  else
    (lines.take 3).map (innerLine m) ++ [m.blank ++ "· │"] ++
      (lines.drop (lines.length - 1)).map (innerLine m)

/-- The last of several lines and the lower end of the bracket. -/
def lastLine (m : Margin) (line : SourceLine) (location : Location) : List String :=
  [innerLine m line,
   m.blank ++ "│ ╰" ++ dashes line.cells (location.span.stop - line.start) ++ "^" ++
     afterMarks location.label]

/-- The lines of a note, each ended by a line feed or a carriage return and a line feed. -/
def noteLines (text : List Char) : List (List Char) :=
  let ended := (Text.pieces text).dropLast.map fun line =>
    if line.getLast? = some '\r' then line.dropLast else line
  match (Text.pieces text).getLast? with
  | none | some [] => ended
  | some rest => ended ++ [rest]

/-- A note after its mark; its further lines are indented as far. -/
def note (m : Margin) (text : String) : List String :=
  match noteLines text.toList with
  | [] => []
  | first :: others =>
    (m.blank ++ "= " ++ String.ofList first) ::
      others.map fun line => m.blank ++ "  " ++ String.ofList line

end Excerpt

open Excerpt in
/-- The lines of an excerpt and of the notes under it. -/
def Location.excerpt (location : Location) (notes : List String) : List String :=
  let lines := SourceLine.ofSource location.source.toList
  match SourceLine.at? lines location.span.start, SourceLine.at? lines location.span.stop with
  | some first, some last =>
    let m : Margin := ⟨(Nat.toDigits 10 (max first.number last.number)).length⟩
    let name := if location.path.isEmpty then "<input>" else location.path
    let head := m.blank ++ s!"┌─ {name}:{first.number}:{first.column location.span.start}"
    let isSingle := first.number = last.number
    let rule := m.blank ++ (if isSingle then "│" else "│  ")
    let body :=
      if isSingle then singleLine m first location
      else
        let inner := lines.filter fun l => first.number < l.number ∧ l.number < last.number
        firstLine m first location ++ between m inner ++ lastLine m last location
    let after := if notes.isEmpty then [] else rule :: notes.flatMap (note m)
    head :: rule :: body ++ after
  | _, _ => []

end ConfigExpr
