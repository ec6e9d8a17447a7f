import ConfigExpr.Command.Session
import ConfigExpr.Text.Visible

/-!
# Token listings

A listing shows the tokens of a line, one below the other with their spans, and the parts of a
string indented under it. A lexical error ends it.
-/

namespace ConfigExpr

def Keyword.kind : Keyword → String
  | .letWord => "Let"
  | .inWord => "In"
  | .trueWord => "True"
  | .falseWord => "False"

def Mark.kind : Mark → String
  | .openBrace => "LBrace"
  | .closeBrace => "RBrace"
  | .openBracket => "LBracket"
  | .closeBracket => "RBracket"
  | .openParen => "LParen"
  | .closeParen => "RParen"
  | .colon => "Colon"
  | .comma => "Comma"
  | .equals => "Assign"
  | .arrow => "Arrow"
  | .dot => "Dot"

/-- A token by its kind and what it holds. -/
def Token.listed : Token → String
  | .ident name => "Ident(" ++ Text.visible name ++ ")"
  | .int value => s!"Int({value.toInt})"
  | .float value => "Float(" ++ value.toLiteral ++ ")"
  | .string _ => "String"
  | .comment => "Comment"
  | .keyword word => word.kind
  | .mark m => m.kind
  | .eof => "Eof"

def indented (depth : Nat) (text : String) : String :=
  String.join (List.replicate depth "  ") ++ text ++ "\n"

mutual

def Spanned.listing (depth : Nat) : Spanned → String
  | ⟨token, span⟩ =>
    indented depth (span.toString ++ " " ++ token.listed) ++ token.partListing depth

/-- The parts of a string. -/
def Token.partListing (depth : Nat) : Token → String
  | .string parts => StringPart.listing depth parts
  | _ => ""

/-- Plain text stands one step to the right of its string, and so do tokens. -/
def StringPart.listing (depth : Nat) : List StringPart → String
  | [] => ""
  | p :: others => p.listed depth ++ StringPart.listing depth others

def StringPart.listed (depth : Nat) : StringPart → String
  | .text text => indented (depth + 1) ("Text(" ++ Text.visible text ++ ")")
  | .code tokens => Spanned.listingAll (depth + 1) tokens

/-- End marks are not listed. -/
def Spanned.listingAll (depth : Nat) : List Spanned → String
  | [] => ""
  | t :: ts => (if t.token.isEof then "" else t.listing depth) ++ Spanned.listingAll depth ts

end

def LexError.listing (e : LexError) : String :=
  "[at " ++ e.span.toString ++ "] Lexical Error: " ++ e.fault.message ++ "\n" ++
    String.join (e.fault.notes.map (· ++ "\n"))

/-- The listing of a line. -/
def Tokens.listing (ts : Tokens) : String :=
  Spanned.listingAll 0 ts.tokens ++
    match ts.error with
    | none => ""
    | some e => e.listing

/-- What is written for a line, or `none` where the line ends the listing. -/
def listLine (line : String) : Option String :=
  let line := trimLineEnd line.toList
  if line = [] then some ""
  else if line = exitLine then none
  else some (Cursor.start line).tokens.listing

end ConfigExpr
