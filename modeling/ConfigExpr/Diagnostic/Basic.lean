import ConfigExpr.Diagnostic.Excerpt

/-!
# Diagnostics

A diagnostic is an error ready to be read: a title, notes, and where the error has a place in a
source an excerpt that shows it. Only a diagnostic without an excerpt can be coloured.
-/

namespace ConfigExpr

structure Diagnostic where
  title : String
  notes : List String
  location : Option Location

/-- Control sequences for the colours of a terminal. Each colour starts from the plain state. -/
inductive Style where
  | plain
  | bold
  | boldRed
  /-- A bright colour by its number in the table of 256. -/
  | boldBright (colour : Nat)
  deriving DecidableEq

def Style.code : Style → String
  | .plain => "\x1b[0m"
  | .bold => "\x1b[0m\x1b[1m"
  | .boldRed => "\x1b[0m\x1b[1m\x1b[31m"
  | .boldBright colour => s!"\x1b[0m\x1b[1m\x1b[38;5;{colour}m"

/-- A control sequence, where colours are wanted. -/
def Style.inColour (style : Style) (colour : Bool) : String :=
  if colour then style.code else ""

namespace Diagnostic

def unlines (lines : List String) : String :=
  String.join (lines.map (· ++ "\n"))

/-- A diagnostic without an excerpt writes its notes as they are. -/
def withoutExcerpt (d : Diagnostic) (colour : Bool) : String :=
  Style.boldRed.inColour colour ++ "error" ++ Style.bold.inColour colour ++ ": " ++ d.title ++
    "\n" ++ Style.plain.inColour colour ++ unlines (d.notes.map ("  = " ++ ·))

def write (d : Diagnostic) (colour : Bool) : String :=
  match d.location with
  | none => d.withoutExcerpt colour
  | some location => unlines (("error: " ++ d.title) :: location.excerpt d.notes ++ [""])

end Diagnostic

end ConfigExpr
