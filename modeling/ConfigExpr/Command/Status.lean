import ConfigExpr.Diagnostic.Basic

/-!
# Status lines

What a command is doing, one line for each step, with the name of the step right-aligned.
-/

namespace ConfigExpr

inductive Status where
  | evaluating
  | expanding
  | entry
  | failed
  | evaluated
  deriving DecidableEq

namespace Status

def name : Status → String
  | .evaluating => "Evaluating"
  | .expanding => "Expanding"
  | .entry => "Entry"
  | .failed => "Failed"
  | .evaluated => "Evaluated"

def colour : Status → Nat
  | .evaluating => 13
  | .expanding => 14
  | .entry => 10
  | .failed => 9
  | .evaluated => 10

def line (status : Status) (inColour : Bool) (text : String) : String :=
  let padding := String.ofList (List.replicate (11 - status.name.length) ' ')
  (Style.boldBright status.colour).inColour inColour ++ padding ++ status.name ++
    Style.plain.inColour inColour ++ " " ++ text ++ "\n"

end Status

/-- When to colour what is written for people. -/
inductive ColourChoice where
  | always
  | never
  /-- Where a terminal shows it. -/
  | auto
  deriving DecidableEq

/-- A wish for colour wins over one for none, and without either only a terminal gets colour. -/
def ColourChoice.of (forced disabled terminal : Bool) : ColourChoice :=
  if forced then .always
  else if disabled then .never
  else if terminal then .auto
  else .never

end ConfigExpr
