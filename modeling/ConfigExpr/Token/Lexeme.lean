import ConfigExpr.Token.Basic
import ConfigExpr.Token.Error

/-!
# Lexemes

A lexeme is the text of one token that is not a string: a comment, a number, a word or a mark. The
longest text is taken in each case, and `lexeme` always takes at least one character; a text that
is no token is taken too and names its fault.
-/

namespace ConfigExpr

def isWordStart (c : Char) : Bool :=
  c.isAlpha || c == '_'

def isWordRest (c : Char) : Bool :=
  c.isAlphanum || c == '_' || c == '-'

/-- A token read from the front of `input`, with its text and what follows. -/
structure Lexeme (input : List Char) where
  reading : Except LexFault Token
  text : List Char
  rest : List Char
  text_append_rest : text ++ rest = input
  text_ne_nil : text ≠ []

namespace Lexeme

theorem rest_length_lt {input : List Char} (l : Lexeme input) : l.rest.length < input.length := by
  have h := congrArg List.length l.text_append_rest
  have := List.length_pos_iff.2 l.text_ne_nil
  simp only [List.length_append] at h
  omega

/-- A text of one character. -/
def single (reading : Except LexFault Token) (c : Char) (cs : List Char) : Lexeme (c :: cs) :=
  ⟨reading, [c], cs, rfl, by simp⟩

/-- A first character and all that follow it with a property. -/
def run (reading : List Char → Except LexFault Token) (p : Char → Bool) (c : Char)
    (cs : List Char) : Lexeme (c :: cs) :=
  ⟨reading (c :: cs.takeWhile p), c :: cs.takeWhile p, cs.dropWhile p, by simp, by simp⟩

/-- A comment ends before the next line feed. -/
def comment (c : Char) (cs : List Char) : Lexeme (c :: cs) :=
  run (fun _ => .ok .comment) (· != '\n') c cs

def word (c : Char) (cs : List Char) : Lexeme (c :: cs) :=
  run (fun text => .ok (Token.ofWord text)) isWordRest c cs

/-- The size of the least integer of 64 bits. -/
def int64Bound : Nat := 0x8000000000000000

/-- An integer has to fit into 64 bits with its sign. -/
def integer (sign digits : List Char) : Except LexFault Token :=
  let size := Nat.ofDigitChars 10 digits 0
  if sign.isEmpty then
    if size < int64Bound then .ok (.int (Int64.ofInt size)) else .error .numberTooLarge
  else
    if size ≤ int64Bound then .ok (.int (Int64.ofInt (-size))) else .error .numberTooLarge

/-- A number with a point is the nearest one to its text. -/
def float (text : List Char) : Except LexFault Token :=
  match Binary64.read? (String.ofList text) with
  | some x => .ok (.float x)
  | none => .error .numberTooLarge

/-- A number is a sign that has been read, a digit and what follows. A point belongs to it only
before a digit, so that a method can be called on an integer. -/
def number (sign : List Char) (d : Char) (cs : List Char) : Lexeme (sign ++ d :: cs) :=
  let whole := d :: cs.takeWhile Char.isDigit
  have split : sign ++ whole ++ cs.dropWhile Char.isDigit = sign ++ d :: cs := by simp [whole]
  match h : cs.dropWhile Char.isDigit with
  | '.' :: f :: more =>
    if f.isDigit then
      let fraction := f :: more.takeWhile Char.isDigit
      let text := sign ++ whole ++ '.' :: fraction
      ⟨float text, text, more.dropWhile Char.isDigit, by simp [text, ← split, h, fraction],
        by simp [text]⟩
    else
      ⟨integer sign whole, sign ++ whole, '.' :: f :: more, by rw [← split, h], by simp [whole]⟩
  | rest => ⟨integer sign whole, sign ++ whole, rest, by rw [← split, h], by simp [whole]⟩

end Lexeme

/-- The lexeme a text begins with. -/
def lexeme (c : Char) (cs : List Char) : Lexeme (c :: cs) :=
  if c = '#' then .comment c cs
  else if isWordStart c then .word c cs
  else if c.isDigit then .number [] c cs
  else
    match c, cs with
    | '-', d :: cs =>
      if d.isDigit then .number ['-'] d cs else .single (.error (.unrecognized '-')) '-' (d :: cs)
    | '=', '>' :: cs => ⟨.ok (.mark .arrow), ['=', '>'], cs, rfl, by simp⟩
    | c, cs =>
      match Mark.ofChar? c with
      | some m => .single (.ok (.mark m)) c cs
      | none => .single (.error (.unrecognized c)) c cs

end ConfigExpr
