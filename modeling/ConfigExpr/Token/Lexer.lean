import ConfigExpr.Text.Blank
import ConfigExpr.Text.Escape
import ConfigExpr.Token.Lexeme

/-!
# Reading tokens

`Cursor.next` reads the token at a place in a source text, after any blank characters. A string is
read in stretches of plain text, each ended by the closing quotes or by `${`, where the code up to
the matching brace is read as tokens of its own. Every reading that succeeds leaves a shorter text,
so `Cursor.tokens` reaches the end of the text or its first lexical error.
-/

namespace ConfigExpr

/-- A place in a source text: its byte position and the characters from there on. -/
structure Cursor where
  position : Nat
  rest : List Char

/-- The two forms of string: in a line string a backslash escapes and a line feed is an error, in a
block string all characters stand for themselves. -/
inductive Quotes where
  | line
  | block
  deriving DecidableEq

/-- Where a stretch of plain text in a string ends. -/
inductive StretchEnd where
  /-- The closing quotes; the cursor is after them. -/
  | closed (next : Cursor)
  /-- The start of code at the byte position of its dollar sign; the cursor is after the brace. -/
  | code (dollar : Nat) (next : Cursor)

namespace StretchEnd

def next : StretchEnd → Cursor
  | .closed next => next
  | .code _ next => next

end StretchEnd

/-- A stretch of plain text in a string that opened at byte position `opening`. -/
def lineStretch (opening : Nat) : Nat → List Char → Except LexError (List Char × StretchEnd)
  | p, [] => .error ⟨.unterminatedString, ⟨opening, p⟩⟩
  | p, '"' :: cs => .ok ([], .closed ⟨p + 1, cs⟩)
  | p, '\n' :: _ => .error ⟨.unterminatedString, ⟨opening, p⟩⟩
  | p, ['\\'] => .error ⟨.unterminatedString, ⟨p, p + 1⟩⟩
  | p, '\\' :: c :: cs =>
    match Text.escaped? c with
    | some d =>
      match lineStretch opening (p + 1 + c.utf8Size) cs with
      | .ok (text, stop) => .ok (d :: text, stop)
      | .error e => .error e
    | none => .error ⟨.unknownEscape c, ⟨p, p + 1 + c.utf8Size⟩⟩
  | p, '$' :: '\x7b' :: cs => .ok ([], .code p ⟨p + 2, cs⟩)
  | p, c :: cs =>
    match lineStretch opening (p + c.utf8Size) cs with
    | .ok (text, stop) => .ok (c :: text, stop)
    | .error e => .error e

/-- In a block string quotes are read two at a time: they belong to its text unless a third one
follows. -/
def blockStretch (opening : Nat) : Nat → List Char → Except LexError (List Char × StretchEnd)
  | p, [] => .error ⟨.unterminatedBlock, ⟨opening, p⟩⟩
  | p, '"' :: '"' :: cs =>
    match cs with
    | '"' :: after => .ok ([], .closed ⟨p + 3, after⟩)
    | _ =>
      match blockStretch opening (p + 2) cs with
      | .ok (text, stop) => .ok ('"' :: '"' :: text, stop)
      | .error e => .error e
  | p, '$' :: '\x7b' :: cs => .ok ([], .code p ⟨p + 2, cs⟩)
  | p, c :: cs =>
    match blockStretch opening (p + c.utf8Size) cs with
    | .ok (text, stop) => .ok (c :: text, stop)
    | .error e => .error e

def stretch (quotes : Quotes) (opening : Nat) (c : Cursor) :
    Except LexError (List Char × StretchEnd) :=
  match quotes with
  | .line => lineStretch opening c.position c.rest
  | .block => blockStretch opening c.position c.rest

theorem rest_length_lt_of_lineStretch {opening : Nat} {p : Nat} {cs text : List Char}
    {stop : StretchEnd} (h : lineStretch opening p cs = .ok (text, stop)) :
    stop.next.rest.length < cs.length := by
  fun_induction lineStretch opening p cs generalizing text stop <;>
    grind [StretchEnd.next]

theorem rest_length_lt_of_blockStretch {opening : Nat} {p : Nat} {cs text : List Char}
    {stop : StretchEnd} (h : blockStretch opening p cs = .ok (text, stop)) :
    stop.next.rest.length < cs.length := by
  fun_induction blockStretch opening p cs generalizing text stop <;>
    grind [StretchEnd.next]

theorem rest_length_lt_of_stretch {quotes : Quotes} {opening : Nat} {c : Cursor}
    {text : List Char} {stop : StretchEnd} (h : stretch quotes opening c = .ok (text, stop)) :
    stop.next.rest.length < c.rest.length := by
  cases quotes
  · exact rest_length_lt_of_lineStretch h
  · exact rest_length_lt_of_blockStretch h

/-- A reading from a text of `n` characters, with the cursor after it. -/
inductive Scan (α : Type) (n : Nat) where
  | ok (value : α) (next : Cursor) (shorter : next.rest.length < n)
  | error (e : LexError)

/-- What stands at a cursor: a token, the end of the text or a fault. -/
inductive Step (n : Nat) where
  | token (t : Spanned) (next : Cursor) (shorter : next.rest.length < n)
  | finish (position : Nat)
  | error (e : LexError)

/-- How many braces are open after a token, or `none` where it closes the code it stands in. -/
def Token.depthAfter? (depth : Nat) : Token → Option Nat
  | .mark .openBrace => some (depth + 1)
  | .mark .closeBrace => if depth = 0 then none else some (depth - 1)
  | _ => some depth

/-- Plain text is no part of a string where it is empty. -/
def StringPart.ofText (text : List Char) : List StringPart :=
  if text.isEmpty then [] else [.text (String.ofList text)]

namespace Cursor

def start (source : List Char) : Cursor := ⟨0, source⟩

/-- Skips blank characters. -/
def skipBlanks (c : Cursor) : Cursor :=
  ⟨c.position + bytes (c.rest.takeWhile Text.isBlank), c.rest.dropWhile Text.isBlank⟩

theorem rest_length_skipBlanks_le (c : Cursor) : c.skipBlanks.rest.length ≤ c.rest.length :=
  (List.dropWhile_suffix _).length_le

mutual

/-- The token at a cursor. -/
def next (c : Cursor) : Step c.rest.length :=
  have hs := c.rest_length_skipBlanks_le
  let p := c.skipBlanks.position
  match h : c.skipBlanks.rest with
  | [] => .finish p
  | '"' :: '"' :: '"' :: cs =>
    have hlt : cs.length < c.rest.length := by simp [h] at hs; omega
    match string .block p ⟨p + 3, cs⟩ with
    | .ok parts next shorter => .token ⟨.string parts, ⟨p, next.position⟩⟩ next
      (Nat.lt_trans shorter hlt)
    | .error e => .error e
  | '"' :: cs =>
    have hlt : cs.length < c.rest.length := by simp [h] at hs; omega
    match string .line p ⟨p + 1, cs⟩ with
    | .ok parts next shorter => .token ⟨.string parts, ⟨p, next.position⟩⟩ next
      (Nat.lt_trans shorter hlt)
    | .error e => .error e
  | ch :: cs =>
    let l := lexeme ch cs
    let q := p + bytes l.text
    match l.reading with
    | .ok token =>
      .token ⟨token, ⟨p, q⟩⟩ ⟨q, l.rest⟩ (by
        have := l.rest_length_lt
        rw [h] at hs
        exact Nat.lt_of_lt_of_le this hs)
    | .error fault => .error ⟨fault, ⟨p, q⟩⟩
termination_by (c.rest.length, 0)

/-- The parts of a string that opened at byte position `opening`, up to its closing quotes. -/
def string (quotes : Quotes) (opening : Nat) (c : Cursor) : Scan (List StringPart) c.rest.length :=
  match h : stretch quotes opening c with
  | .error e => .error e
  | .ok (text, .closed next) =>
    .ok (StringPart.ofText text) next (rest_length_lt_of_stretch h)
  | .ok (text, .code dollar inside) =>
    have hin : inside.rest.length < c.rest.length := rest_length_lt_of_stretch h
    match code dollar 0 inside with
    | .error e => .error e
    | .ok tokens after hafter =>
      match string quotes opening after with
      | .error e => .error e
      | .ok parts next shorter =>
        .ok (StringPart.ofText text ++ .code tokens :: parts) next (by omega)
termination_by (c.rest.length, 0)

/-- The tokens of the code in a string whose dollar sign stands at byte position `dollar`, up to
the brace that closes it, with `depth` braces open. Its comments are left out. -/
def code (dollar depth : Nat) (c : Cursor) : Scan (List Spanned) c.rest.length :=
  match c.next with
  | .finish p => .error ⟨.unterminatedCode, ⟨dollar, p⟩⟩
  | .error e => .error e
  | .token t after hafter =>
    match t.token.depthAfter? depth with
    | none => .ok [⟨.eof, .point t.span.start⟩] after hafter
    | some inner =>
      match code dollar inner after with
      | .error e => .error e
      | .ok tokens next shorter =>
        .ok (if t.token.isComment then tokens else t :: tokens) next (Nat.lt_trans shorter hafter)
termination_by (c.rest.length, 1)

end

end Cursor

/-- The tokens of a text: all of them up to the end mark, or those before the first fault. -/
structure Tokens where
  tokens : List Spanned
  error : Option LexError

def Cursor.tokens (c : Cursor) : Tokens :=
  match c.next with
  | .finish p => ⟨[⟨.eof, .point p⟩], none⟩
  | .error e => ⟨[], some e⟩
  | .token t after _ =>
    let others := after.tokens
    ⟨t :: others.tokens, others.error⟩
termination_by c.rest.length

def Tokens.ofText (text : String) : Tokens :=
  (Cursor.start text.toList).tokens

end ConfigExpr
