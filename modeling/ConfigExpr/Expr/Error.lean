import ConfigExpr.Token.Basic
import ConfigExpr.Token.Error

/-!
# Parse errors

The ways in which tokens fail to form an expression. The span is the one of the token the parser
stopped at; a lexical error keeps its own.
-/

namespace ConfigExpr

/-- What could have stood in the place of an unexpected token. -/
inductive Expected where
  | mark (m : Mark)
  | keyword (word : Keyword)
  | endOfInput
  | expression
  | key
  deriving DecidableEq

def Expected.text : Expected → String
  | .mark m => m.text
  | .keyword word => word.text
  | .endOfInput => "end of input"
  | .expression => "an expression"
  | .key => "a key"

inductive ParseFault where
  | expectedName
  | expectedBinding
  | invalidKey
  | duplicateParameter (name : String)
  | unexpectedEnd
  | unexpected (found : Token) (expected : List Expected)
  | lexical (e : LexError)

structure ParseError where
  fault : ParseFault
  span : Span

namespace ParseFault

def beq : ParseFault → ParseFault → Bool
  | .expectedName, .expectedName => true
  | .expectedBinding, .expectedBinding => true
  | .invalidKey, .invalidKey => true
  | .duplicateParameter a, .duplicateParameter b => a == b
  | .unexpectedEnd, .unexpectedEnd => true
  | .unexpected t a, .unexpected u b => t == u && a == b
  | .lexical a, .lexical b => a == b
  | _, _ => false

instance : BEq ParseFault := ⟨beq⟩

def message : ParseFault → String
  | .expectedName => "expected an identifier"
  | .expectedBinding => "expected at least one binding after `let`"
  | .invalidKey => "map keys must be identifiers or plain strings"
  | .duplicateParameter name => "parameter `" ++ name ++ "` is declared twice"
  | .unexpectedEnd => "unexpected end of input"
  | .unexpected found expected =>
    "found " ++ found.describe ++ ", expected " ++
      " or ".intercalate (expected.map Expected.text)
  | .lexical e => e.message

/-- The text beside the marked place. -/
def label : ParseFault → String
  | .expectedName => "Expected identifier"
  | .expectedBinding => "Expected a binding"
  | .invalidKey => "Invalid map key"
  | .duplicateParameter name => "Duplicate parameter `" ++ name ++ "`"
  | .unexpectedEnd => "Unexpected end of input"
  | .unexpected _ _ => "Not expected this"
  | .lexical e => e.fault.message

def notes : ParseFault → List String
  | .expectedBinding => ["A `let` block needs at least one `name = expression` before `in`"]
  | .invalidKey => ["Interpolated strings cannot be used as map keys"]
  | .unexpected found expected =>
    ("Found " ++ found.describe ++ ", expected one of: ") :: expected.map ("- " ++ ·.text)
  | .lexical e => e.fault.notes
  | _ => []

end ParseFault

namespace ParseError

def message (e : ParseError) : String :=
  e.fault.message ++ " at " ++ e.span.toString

instance : BEq ParseError := ⟨fun a b => a.fault == b.fault && a.span == b.span⟩

end ParseError

end ConfigExpr
