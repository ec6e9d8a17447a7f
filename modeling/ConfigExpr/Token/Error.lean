import ConfigExpr.Span

/-!
# Lexical errors

The ways in which a text fails to be a sequence of tokens, each at the span that shows the fault.
-/

namespace ConfigExpr

inductive LexFault where
  | unrecognized (c : Char)
  | unknownEscape (c : Char)
  /-- A line string must end on its line. -/
  | unterminatedString
  | unterminatedBlock
  | unterminatedCode
  | numberTooLarge
  deriving DecidableEq

structure LexError where
  fault : LexFault
  span : Span
  deriving DecidableEq

namespace LexFault

def message : LexFault → String
  | .unrecognized c => "unexpected character `" ++ String.ofList [c] ++ "`"
  | .unknownEscape c => "unknown escape sequence `\\" ++ String.ofList [c] ++ "`"
  | .unterminatedString => "string is not closed before the end of the line"
  | .unterminatedBlock => "block string is never closed"
  | .unterminatedCode => "interpolation `$\x7b` is never closed"
  | .numberTooLarge => "number does not fit in a 64-bit integer"

/-- Advice on how to mend the fault. -/
def notes : LexFault → List String
  | .unknownEscape _ => ["Supported escapes are \\n, \\t, \\r, \\\", \\\\ and \\$"]
  | .unterminatedString => ["Use a \"\"\" block string for text spanning several lines"]
  | _ => []

end LexFault

def LexError.message (e : LexError) : String :=
  e.fault.message ++ " at " ++ e.span.toString

end ConfigExpr
