import ConfigExpr.Binary64.Notation
import ConfigExpr.Span

/-!
# Tokens

The words of the language. A string token carries its parts: plain text, and code whose own tokens
are already read and end in an end mark. `Token.text` is the form a token has in a source and
`Token.describe` the way an error speaks of it.
-/

namespace ConfigExpr

/-- The words that cannot be names. -/
inductive Keyword where
  | letWord
  | inWord
  | trueWord
  | falseWord
  deriving DecidableEq

namespace Keyword

def text : Keyword → String
  | .letWord => "let"
  | .inWord => "in"
  | .trueWord => "true"
  | .falseWord => "false"

def ofText? : String → Option Keyword
  | "let" => some .letWord
  | "in" => some .inWord
  | "true" => some .trueWord
  | "false" => some .falseWord
  | _ => none

theorem ofText?_text (k : Keyword) : ofText? k.text = some k := by
  cases k <;> rfl

end Keyword

/-- Punctuation. -/
inductive Mark where
  | openBrace
  | closeBrace
  | openBracket
  | closeBracket
  | openParen
  | closeParen
  | colon
  | comma
  | equals
  | arrow
  | dot
  deriving DecidableEq

namespace Mark

def text : Mark → String
  | .openBrace => "\x7b"
  | .closeBrace => "\x7d"
  | .openBracket => "["
  | .closeBracket => "]"
  | .openParen => "("
  | .closeParen => ")"
  | .colon => ":"
  | .comma => ","
  | .equals => "="
  | .arrow => "=>"
  | .dot => "."

/-- The marks of one character. -/
def ofChar? : Char → Option Mark
  | '\x7b' => some .openBrace
  | '\x7d' => some .closeBrace
  | '[' => some .openBracket
  | ']' => some .closeBracket
  | '(' => some .openParen
  | ')' => some .closeParen
  | ':' => some .colon
  | ',' => some .comma
  | '=' => some .equals
  | '.' => some .dot
  | _ => none

end Mark

mutual

inductive Token where
  | ident (name : String)
  | int (value : Int64)
  | float (value : Binary64)
  | string (parts : List StringPart)
  | comment
  | keyword (word : Keyword)
  | mark (m : Mark)
  | eof

inductive StringPart where
  | text (text : String)
  | code (tokens : List Spanned)

/-- A token and the place it was read from. -/
structure Spanned where
  token : Token
  span : Span

end

namespace Token

/-- The text of a token; a string, a comment and the end of the input are named instead. -/
def text : Token → String
  | .ident name => name
  | .int value => toString value.toInt
  | .float value => value.toPlain
  | .string _ => "string"
  | .comment => "comment"
  | .keyword word => word.text
  | .mark m => m.text
  | .eof => "end of input"

def describe : Token → String
  | .int _ | .float _ => "a number"
  | .ident name => "the identifier `" ++ name ++ "`"
  | .string _ => "a string"
  | .eof => "the end of input"
  | .keyword word => "the keyword `" ++ word.text ++ "`"
  | .comment => "`comment`"
  | .mark m => "`" ++ m.text ++ "`"

/-- A word is a keyword or a name. -/
def ofWord (word : List Char) : Token :=
  match Keyword.ofText? (String.ofList word) with
  | some k => .keyword k
  | none => .ident (String.ofList word)

end Token

/-! Equality of tokens compares numbers as numbers and everything else as data. -/

mutual

def Token.beq : Token → Token → Bool
  | .ident a, .ident b => a == b
  | .int a, .int b => a == b
  | .float a, .float b => a == b
  | .string ps, .string qs => StringPart.beqAll ps qs
  | .comment, .comment => true
  | .keyword a, .keyword b => a == b
  | .mark a, .mark b => a == b
  | .eof, .eof => true
  | _, _ => false
termination_by structural t => t

def StringPart.beq : StringPart → StringPart → Bool
  | .text a, .text b => a == b
  | .code ts, .code us => Spanned.beqAll ts us
  | _, _ => false
termination_by structural p => p

def StringPart.beqAll : List StringPart → List StringPart → Bool
  | [], [] => true
  | p :: ps, q :: qs => p.beq q && StringPart.beqAll ps qs
  | _, _ => false
termination_by structural ps => ps

def Spanned.beq : Spanned → Spanned → Bool
  | ⟨t, s⟩, ⟨u, r⟩ => t.beq u && s == r
termination_by structural t => t

def Spanned.beqAll : List Spanned → List Spanned → Bool
  | [], [] => true
  | t :: ts, u :: us => t.beq u && Spanned.beqAll ts us
  | _, _ => false
termination_by structural ts => ts

end

instance : BEq Token := ⟨Token.beq⟩

/-! The weight of a token counts the tokens inside it too. -/

mutual

def Token.weight : Token → Nat
  | .string parts => StringPart.weightAll parts + 1
  | _ => 1

def StringPart.weight : StringPart → Nat
  | .text _ => 1
  | .code tokens => Spanned.weightAll tokens + 1

def StringPart.weightAll : List StringPart → Nat
  | [] => 0
  | p :: ps => p.weight + StringPart.weightAll ps

def Spanned.weight : Spanned → Nat
  | ⟨t, _⟩ => t.weight

def Spanned.weightAll : List Spanned → Nat
  | [] => 0
  | t :: ts => t.weight + Spanned.weightAll ts

end

theorem Spanned.weight_pos (t : Spanned) : 0 < t.weight := by
  cases t with
  | mk token span => cases token <;> simp [Spanned.weight, Token.weight]

theorem Spanned.weight_eq (t : Spanned) : t.weight = t.token.weight := by
  cases t
  rfl

@[simp] theorem Spanned.weightAll_cons (t : Spanned) (ts : List Spanned) :
    Spanned.weightAll (t :: ts) = t.weight + Spanned.weightAll ts := rfl

theorem Spanned.weightAll_lt_cons (t : Spanned) (ts : List Spanned) :
    Spanned.weightAll ts < Spanned.weightAll (t :: ts) :=
  Nat.lt_add_of_pos_left t.weight_pos

/-- The parts of a string weigh less than any list that begins with the string. -/
theorem StringPart.weightAll_lt_cons {t : Spanned} {parts : List StringPart}
    (h : t.token = .string parts) (ts : List Spanned) :
    StringPart.weightAll parts < Spanned.weightAll (t :: ts) := by
  rw [Spanned.weightAll_cons, Spanned.weight_eq, h, Token.weight]
  exact Nat.lt_add_right _ (Nat.lt_succ_self _)

theorem StringPart.weightAll_lt_cons_self (p : StringPart) (parts : List StringPart) :
    StringPart.weightAll parts < StringPart.weightAll (p :: parts) := by
  cases p <;> exact Nat.lt_add_of_pos_left (Nat.succ_pos _)

theorem Spanned.weightAll_lt_code (tokens : List Spanned) (parts : List StringPart) :
    Spanned.weightAll tokens < StringPart.weightAll (.code tokens :: parts) :=
  Nat.lt_add_right _ (Nat.lt_succ_self _)

namespace Token

def isMark (m : Mark) : Token → Bool
  | .mark n => m = n
  | _ => false

def isKeyword (word : Keyword) : Token → Bool
  | .keyword other => word = other
  | _ => false

def isEof : Token → Bool
  | .eof => true
  | _ => false

def isComment : Token → Bool
  | .comment => true
  | _ => false

theorem isComment_iff {t : Token} : t.isComment = true ↔ t = .comment := by
  cases t <;> simp [isComment]

end Token

end ConfigExpr
