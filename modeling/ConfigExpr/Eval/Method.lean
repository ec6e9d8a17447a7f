import ConfigExpr.Eval.Error
import ConfigExpr.Text.Indent

/-!
# String methods

The methods a string has. Three take no arguments and give a string or a list of lines, three take
one string and say where it occurs in the receiver.
-/

namespace ConfigExpr

namespace Text

/-- Whether a text occurs anywhere in another. -/
def occursIn (part : List Char) : List Char → Bool
  | [] => part.isEmpty
  | c :: cs => part.isPrefixOf (c :: cs) || occursIn part cs

theorem occursIn_iff {part text : List Char} : occursIn part text ↔ part <:+: text := by
  induction text with
  | nil => simp [occursIn]
  | cons c cs ih => simp [occursIn, ih, List.infix_cons_iff]

end Text

inductive Method where
  | unindent
  | trim
  | lines
  | contains
  | startsWith
  | endsWith
  deriving DecidableEq

namespace Method

def ofName? : String → Option Method
  | "unindent" => some .unindent
  | "trim" => some .trim
  | "lines" => some .lines
  | "contains" => some .contains
  | "starts_with" => some .startsWith
  | "ends_with" => some .endsWith
  | _ => none

/-- A method of a text alone. -/
def alone (result : Value) : List Value → Except EvalFault Value
  | [] => .ok result
  | arguments => .error (.arity 0 arguments.length)

/-- A question about a text and one string. -/
def about (answer : List Char → Bool) : List Value → Except EvalFault Value
  | [.string text] => .ok (.bool (answer text.toList))
  | [other] => .error (.mismatch .string other.kind)
  | arguments => .error (.arity 1 arguments.length)

def call (method : Method) (receiver : String) : List Value → Except EvalFault Value :=
  let text := receiver.toList
  match method with
  | .unindent => alone (.string (String.ofList (Text.unindent text)))
  | .trim => alone (.string (String.ofList (Text.trim text)))
  | .lines => alone (.list ((Text.lines text).map fun line => .string (String.ofList line)))
  | .contains => about fun part => Text.occursIn part text
  | .startsWith => about fun part => part.isPrefixOf text
  | .endsWith => about fun part => part.isSuffixOf text

end Method

end ConfigExpr
