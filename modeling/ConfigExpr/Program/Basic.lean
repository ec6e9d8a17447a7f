import ConfigExpr.Expr.Parser
import ConfigExpr.Token.Lexer

/-!
# Programs

A program is an expression with the spans of the comments around it. A lexical error ends its
tokens; it is reported in place of the parse error when the parser, which looks one token ahead,
has met it.
-/

namespace ConfigExpr

structure Program where
  expression : Expr
  comments : List Span

namespace Program

def beq (p q : Program) : Bool :=
  p.expression == q.expression && p.comments == q.comments

instance : BEq Program := ⟨beq⟩

def commentSpans (ts : List Spanned) : List Span :=
  (ts.filter (·.token.isComment)).map (·.span)

def ofTokens (ts : Tokens) : Except ParseError Program :=
  match Expr.parseWhole (withoutComments ts.tokens), ts.error with
  | .ok e _ _, _ => .ok ⟨e, commentSpans ts.tokens⟩
  | .error f, none => .error f.error
  | .error f, some e =>
    if f.atLast then .error ⟨.lexical e, e.span⟩ else .error f.error

def parse (source : String) : Except ParseError Program :=
  ofTokens (Tokens.ofText source)

end Program

end ConfigExpr
