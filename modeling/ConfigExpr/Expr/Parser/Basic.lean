import ConfigExpr.Expr.Basic
import ConfigExpr.Expr.Error

/-!
# Parsing from a list of tokens

A parser takes tokens off the front of a list, which holds no comments. An `Outcome` is a value with
the tokens left, which weigh less than those given, or a `Failure` with the place where the parser
stopped.
-/

namespace ConfigExpr

/-- The tokens the parser sees. -/
def Program.withoutComments (ts : List Spanned) : List Spanned :=
  ts.filter (!·.token.isComment)

namespace Program

theorem withoutComments_cons (t : Spanned) (ts : List Spanned) :
    withoutComments (t :: ts) =
      if t.token.isComment then withoutComments ts else t :: withoutComments ts := by
  cases h : t.token.isComment <;> simp [withoutComments, h]

@[simp] theorem withoutComments_withoutComments (ts : List Spanned) :
    withoutComments (withoutComments ts) = withoutComments ts := by
  simp [withoutComments]

theorem withoutComments_eq_self {ts : List Spanned} (h : .comment ∉ ts.map (·.token)) :
    withoutComments ts = ts := by
  refine List.filter_eq_self.2 fun t ht => ?_
  rw [Bool.not_eq_true', Bool.eq_false_iff, ne_eq, Token.isComment_iff]
  exact fun hcomment => h (List.mem_map.2 ⟨t, ht, hcomment⟩)

theorem weightAll_withoutComments_le (ts : List Spanned) :
    Spanned.weightAll (withoutComments ts) ≤ Spanned.weightAll ts := by
  induction ts with
  | nil => exact Nat.le_refl _
  | cons t ts ih =>
    rw [withoutComments_cons]
    split
    · exact Nat.le_trans ih (Nat.le_of_lt (t.weightAll_lt_cons ts))
    · exact Nat.add_le_add_left ih _

theorem weightAll_withoutComments_lt_code (tokens : List Spanned) (parts : List StringPart) :
    Spanned.weightAll (withoutComments tokens) < StringPart.weightAll (.code tokens :: parts) :=
  Nat.lt_of_le_of_lt (weightAll_withoutComments_le tokens) (Spanned.weightAll_lt_code tokens parts)

end Program

/-- Where and why a parser stopped. -/
structure Failure where
  error : ParseError
  /-- The tokens from the one the parser stopped at. -/
  rest : List Spanned
  /-- Whether the first of these tokens was taken before the fault showed. -/
  taken : Bool

namespace Failure

/-- The token that is current after the failure. -/
def current? (f : Failure) : Option Spanned :=
  if f.taken then none else f.rest.head?

/-- Whether nothing follows the token the parser stopped at. -/
def atLast (f : Failure) : Bool :=
  f.rest.length ≤ 1

def stop (fault : ParseFault) (span : Span) (rest : List Spanned) : Failure :=
  ⟨⟨fault, span⟩, rest, false⟩

/-- Running out of tokens has no place in the source. -/
def exhausted : Failure :=
  stop .unexpectedEnd (.point 0) []

/-- A token that fits none of the expected ones; the end mark has a fault of its own. -/
def unexpected (t : Spanned) (rest : List Spanned) (expected : List Expected) : Failure :=
  match t.token with
  | .eof => stop .unexpectedEnd t.span (t :: rest)
  | token => stop (.unexpected token expected) t.span (t :: rest)

end Failure

inductive Outcome (α : Type) (n : Nat) where
  | ok (value : α) (rest : List Spanned) (lighter : Spanned.weightAll rest < n)
  | error (f : Failure)

namespace Outcome

variable {α β : Type} {m n : Nat}

def map (f : α → β) : Outcome α n → Outcome β n
  | .ok value rest lighter => .ok (f value) rest lighter
  | .error e => .error e

/-- An outcome that leaves less than a list leaves less than a longer one. -/
def weaken (h : m < n) : Outcome α m → Outcome α n
  | .ok value rest lighter => .ok value rest (Nat.lt_trans lighter h)
  | .error e => .error e

end Outcome

/-- The given mark, which is left out of the result but for its span. -/
def expectMark (m : Mark) : (ts : List Spanned) → Outcome Span (Spanned.weightAll ts)
  | [] => .error .exhausted
  | t :: ts =>
    if t.token.isMark m then .ok t.span ts (t.weightAll_lt_cons ts)
    else .error (.unexpected t ts [.mark m])

def expectKeyword (word : Keyword) : (ts : List Spanned) → Outcome Span (Spanned.weightAll ts)
  | [] => .error .exhausted
  | t :: ts =>
    if t.token.isKeyword word then .ok t.span ts (t.weightAll_lt_cons ts)
    else .error (.unexpected t ts [.keyword word])

def expectEof : (ts : List Spanned) → Outcome Span (Spanned.weightAll ts)
  | [] => .error .exhausted
  | t :: ts =>
    if t.token.isEof then .ok t.span ts (t.weightAll_lt_cons ts)
    else .error (.unexpected t ts [.endOfInput])

def expectName : (ts : List Spanned) → Outcome Name (Spanned.weightAll ts)
  | [] => .error .exhausted
  | t :: ts =>
    match t.token with
    | .ident text => .ok ⟨text, t.span⟩ ts (t.weightAll_lt_cons ts)
    | .eof => .error (.stop .unexpectedEnd t.span (t :: ts))
    | _ => .error (.stop .expectedName t.span (t :: ts))

/-- The names of a parameter list up to its closing parenthesis, separated by commas. -/
def parameters (ts : List Spanned) : Outcome (List Name) (Spanned.weightAll ts) :=
  match expectName ts with
  | .error f => .error f
  | .ok _ [] _ => .error .exhausted
  | .ok name (t :: rest) h =>
    have lighter := Nat.lt_trans (t.weightAll_lt_cons rest) h
    if t.token.isMark .comma then ((parameters rest).map (name :: ·)).weaken lighter
    else if t.token.isMark .closeParen then .ok [name] rest lighter
    else .error (.unexpected t rest [.mark .closeParen])
termination_by Spanned.weightAll ts

end ConfigExpr
