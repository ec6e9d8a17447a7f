/-!
# Escapes

Between double quotes a backslash and a letter or sign stand for one character. `escape` writes a
text so that it can stand between quotes, and `escaped?` reads the character after a backslash.
-/

namespace ConfigExpr.Text

/-- What a backslash followed by the given character stands for. -/
def escaped? : Char → Option Char
  | 'n' => some '\n'
  | 't' => some '\t'
  | 'r' => some '\r'
  | '"' => some '"'
  | '\\' => some '\\'
  | '$' => some '$'
  | _ => none

def escapeChar : Char → List Char
  | '"' => ['\\', '"']
  | '\\' => ['\\', '\\']
  | '\n' => ['\\', 'n']
  | '\t' => ['\\', 't']
  | '\r' => ['\\', 'r']
  | '$' => ['\\', '$']
  | c => [c]

def escape (text : List Char) : List Char :=
  text.flatMap escapeChar

/-- The text between double quotes, in escaped form. -/
def quote (text : String) : String :=
  "\"" ++ String.ofList (escape text.toList) ++ "\""

end ConfigExpr.Text
