import ConfigExpr.Token.Basic

/-!
# Expressions

The forms of the language, each with the span it was read from. A template is a string, with or
without code in it. Parentheses leave no trace of their own.
-/

namespace ConfigExpr

/-- A name or key with the place it stands at. -/
structure Name where
  text : String
  span : Span
  deriving DecidableEq

/-- The first name with a text that is among `seen` or belongs to a name before it. -/
def Name.repeated? (seen : List String) : List Name → Option Name
  | [] => none
  | name :: names =>
    if name.text ∈ seen then some name else Name.repeated? (name.text :: seen) names

mutual

inductive Expr where
  | int (value : Int64) (span : Span)
  | float (value : Binary64) (span : Span)
  | bool (value : Bool) (span : Span)
  | template (segments : List Segment) (span : Span)
  | name (name : Name)
  /-- Each binding sees the ones before it, the body all of them. -/
  | letIn (bindings : List Binding) (body : Expr) (span : Span)
  | lambda (parameters : List Name) (body : Expr) (span : Span)
  | apply (callee : Expr) (arguments : List Expr) (span : Span)
  | map (entries : List Entry) (span : Span)
  | list (items : List Expr) (span : Span)
  | member (receiver : Expr) (name : Name) (span : Span)
  | method (receiver : Expr) (name : Name) (arguments : List Expr) (span : Span)
  | index (receiver key : Expr) (span : Span)

/-- A stretch of a string: plain text, or code whose value is put in its place. -/
inductive Segment where
  | text (text : String)
  | code (e : Expr)

structure Binding where
  name : Name
  value : Expr

structure Entry where
  key : Name
  value : Expr

end

namespace Expr

def span : Expr → Span
  | .int _ s | .float _ s | .bool _ s | .template _ s | .letIn _ _ s | .lambda _ _ s
  | .apply _ _ s | .map _ s | .list _ s | .member _ _ s | .method _ _ _ s | .index _ _ s => s
  | .name n => n.span

end Expr

namespace Segment

/-- The text of a string without code. -/
def plainText? : List Segment → Option String
  | [] => some ""
  | .text s :: others => (plainText? others).map (s ++ ·)
  | .code _ :: _ => none

end Segment

/-! Equality of expressions includes their spans and compares numbers as numbers. -/

mutual

def Expr.beq : Expr → Expr → Bool
  | .int a s, .int b t => a == b && s == t
  | .float a s, .float b t => a == b && s == t
  | .bool a s, .bool b t => a == b && s == t
  | .template a s, .template b t => Segment.beqAll a b && s == t
  | .name a, .name b => a == b
  | .letIn a e s, .letIn b f t => Binding.beqAll a b && e.beq f && s == t
  | .lambda a e s, .lambda b f t => a == b && e.beq f && s == t
  | .apply e a s, .apply f b t => e.beq f && Expr.beqAll a b && s == t
  | .map a s, .map b t => Entry.beqAll a b && s == t
  | .list a s, .list b t => Expr.beqAll a b && s == t
  | .member e a s, .member f b t => e.beq f && a == b && s == t
  | .method e n a s, .method f m b t => e.beq f && n == m && Expr.beqAll a b && s == t
  | .index e k s, .index f l t => e.beq f && k.beq l && s == t
  | _, _ => false
termination_by structural e => e

def Expr.beqAll : List Expr → List Expr → Bool
  | [], [] => true
  | e :: es, f :: fs => e.beq f && Expr.beqAll es fs
  | _, _ => false
termination_by structural es => es

def Segment.beq : Segment → Segment → Bool
  | .text a, .text b => a == b
  | .code e, .code f => e.beq f
  | _, _ => false
termination_by structural s => s

def Segment.beqAll : List Segment → List Segment → Bool
  | [], [] => true
  | a :: as, b :: bs => a.beq b && Segment.beqAll as bs
  | _, _ => false
termination_by structural ss => ss

def Binding.beq : Binding → Binding → Bool
  | ⟨a, e⟩, ⟨b, f⟩ => a == b && e.beq f
termination_by structural b => b

def Binding.beqAll : List Binding → List Binding → Bool
  | [], [] => true
  | a :: as, b :: bs => a.beq b && Binding.beqAll as bs
  | _, _ => false
termination_by structural bs => bs

def Entry.beq : Entry → Entry → Bool
  | ⟨a, e⟩, ⟨b, f⟩ => a == b && e.beq f
termination_by structural e => e

def Entry.beqAll : List Entry → List Entry → Bool
  | [], [] => true
  | a :: as, b :: bs => a.beq b && Entry.beqAll as bs
  | _, _ => false
termination_by structural es => es

end

instance : BEq Expr := ⟨Expr.beq⟩

end ConfigExpr
