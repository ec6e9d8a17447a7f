import ConfigExpr.Proofs.Everywhere
import ConfigExpr.Value.Basic

/-!
# Lexical scope

Which names an expression binds around its parts, innermost first: a `let` binds around each of its
values the names before it and around its body all of them, a lambda binds its parameters around its
body. From this alone follow where an expression stands in a whole one (`Expr.Stands`) and which
names are free in it (`Expr.Free`).
-/

namespace ConfigExpr

namespace Expr

/-- The parts that see the names that the expression sees. -/
def operands : Expr → List Expr
  | .letIn .. | .lambda .. => []
  | e => e.parts

/-- A part of an expression and the names bound around it there. -/
inductive Part : Expr → List String → Expr → Prop where
  | operand {e x : Expr} : x ∈ e.operands → Part e [] x
  | binding {before after : List Binding} {b : Binding} {body : Expr} {s : Span} :
    Part (.letIn (before ++ b :: after) body s) (before.map (·.name.text)).reverse b.value
  | body {bindings : List Binding} {body : Expr} {s : Span} :
    Part (.letIn bindings body s) (bindings.map (·.name.text)).reverse body
  | lambda {parameters : List Name} {body : Expr} {s : Span} :
    Part (.lambda parameters body s) (parameters.map (·.text)).reverse body

/-- An expression stands in a whole one with the names of all binders around it. -/
inductive Stands (whole : Expr) : List String → Expr → Prop where
  | whole : Stands whole [] whole
  | part {names inner : List String} {e x : Expr} :
    Stands whole names e → Part e inner x → Stands whole (inner ++ names) x

/-- A name is free in an expression if it occurs where the expression does not bind it. -/
inductive Free (name : String) : Expr → Prop where
  | name {n : Name} : n.text = name → Free name (.name n)
  | part {e x : Expr} {names : List String} :
    Part e names x → name ∉ names → Free name x → Free name e

theorem free_lambda_iff {name : String} {parameters : List Name} {body : Expr} {s : Span} :
    (Expr.lambda parameters body s).Free name ↔
      name ∉ parameters.map (·.text) ∧ body.Free name := by
  constructor
  · intro h
    cases h with
    | part hpart hname hfree =>
      cases hpart with
      | operand hx => cases hx
      | lambda => exact ⟨fun h => hname (List.mem_reverse.2 h), hfree⟩
  · rintro ⟨hname, hfree⟩
    exact .part .lambda (fun h => hname (List.mem_reverse.1 h)) hfree

end Expr

/-- The closures in a value, those that its closures have captured included. -/
inductive Value.Contains : Value → Closure → Prop where
  | closure {c : Closure} : Contains (.closure c) c
  | item {items : List Value} {v : Value} {c : Closure} :
    v ∈ items → v.Contains c → Contains (.list items) c
  | field {fields : List Field} {f : Field} {c : Closure} :
    f ∈ fields → f.value.Contains c → Contains (.map fields) c
  | captured {c d : Closure} {f : Frame} :
    f ∈ c.env → f.value.Contains d → Contains (.closure c) d

theorem Value.Contains.trans {v : Value} {c d : Closure} (h : v.Contains c)
    (hcd : (Value.closure c).Contains d) : v.Contains d := by
  induction h with
  | closure => exact hcd
  | item hv _ ih => exact .item hv (ih hcd)
  | field hf _ ih => exact .field hf (ih hcd)
  | captured hf _ ih => exact .captured hf (ih hcd)

def Value.ClosureFree (v : Value) : Prop := ∀ c, ¬ v.Contains c

end ConfigExpr
