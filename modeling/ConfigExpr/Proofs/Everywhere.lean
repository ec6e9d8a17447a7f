import ConfigExpr.Proofs.Spans

/-!
# Properties of all parts

The parts of an expression are the expressions that stand in it, those in strings included.
`Expr.Everywhere p` says that `p` holds of an expression, its parts, their parts and so on.
-/

namespace ConfigExpr

def Segment.code? : Segment → Option Expr
  | .text _ => none
  | .code e => some e

def Binding.places (b : Binding) : List Span :=
  [b.name.span, b.value.span]

def Entry.places (e : Entry) : List Span :=
  [e.key.span, e.value.span]

namespace Expr

/-- The expressions directly in an expression. -/
def parts : Expr → List Expr
  | .template segments _ => segments.filterMap Segment.code?
  | .letIn bindings body _ => bindings.map (·.value) ++ [body]
  | .lambda _ body _ => [body]
  | .apply callee arguments _ => callee :: arguments
  | .map entries _ => entries.map (·.value)
  | .list items _ => items
  | .member receiver _ _ => [receiver]
  | .method receiver _ arguments _ => receiver :: arguments
  | .index receiver key _ => [receiver, key]
  | _ => []

/-- The places of the names, keys and expressions directly in an expression, in the order of the
source. -/
def places : Expr → List Span
  | .template segments _ => (segments.filterMap Segment.code?).map span
  | .letIn bindings body _ => bindings.flatMap Binding.places ++ [body.span]
  | .lambda parameters body _ => parameters.map (·.span) ++ [body.span]
  | .apply callee arguments _ => callee.span :: arguments.map span
  | .map entries _ => entries.flatMap Entry.places
  | .list items _ => items.map span
  | .member receiver n _ => [receiver.span, n.span]
  | .method receiver n arguments _ => receiver.span :: n.span :: arguments.map span
  | .index receiver key _ => [receiver.span, key.span]
  | _ => []

inductive Everywhere (p : Expr → Prop) : Expr → Prop where
  | intro {e : Expr} : p e → (∀ x ∈ e.parts, Everywhere p x) → Everywhere p e

variable {p q : Expr → Prop} {e : Expr}

theorem Everywhere.self (h : e.Everywhere p) : p e := by
  cases h
  assumption

theorem Everywhere.part {x : Expr} (h : e.Everywhere p) (hx : x ∈ e.parts) : x.Everywhere p := by
  cases h with
  | intro _ hparts => exact hparts x hx

theorem Everywhere.imp (h : e.Everywhere p) (hpq : ∀ x, p x → q x) : e.Everywhere q := by
  induction h with
  | intro hp _ ih => exact .intro (hpq _ hp) ih

theorem everywhere_and : e.Everywhere (fun x => p x ∧ q x) ↔ e.Everywhere p ∧ e.Everywhere q := by
  constructor
  · exact fun h => ⟨h.imp fun _ => And.left, h.imp fun _ => And.right⟩
  · rintro ⟨h, h'⟩
    induction h with
    | intro hp _ ih => exact .intro ⟨hp, h'.self⟩ fun x hx => ih x hx (h'.part hx)

theorem parts_unplaced (e : Expr) : e.unplaced.parts = e.parts.map unplaced := by
  cases e with
  | template segments span =>
    simp only [unplaced_template, parts, List.filterMap_map, List.map_filterMap]
    congr 1
    funext s
    cases s <;> rfl
  | letIn | map => simp [parts, Function.comp_def]
  | _ => simp [parts]

/-- A property that does not depend on positions holds everywhere with them or without. -/
theorem everywhere_unplaced (hp : ∀ x : Expr, p x.unplaced ↔ p x) :
    e.unplaced.Everywhere p ↔ e.Everywhere p := by
  constructor
  · intro h
    generalize hu : e.unplaced = u at h
    induction h generalizing e with
    | intro hself _ ih =>
      subst hu
      refine .intro ((hp e).1 hself) fun x hx => ih x.unplaced ?_ rfl
      rw [parts_unplaced]
      exact List.mem_map_of_mem hx
  · intro h
    induction h with
    | @intro e hself _ ih =>
      refine .intro ((hp e).2 hself) ?_
      rw [parts_unplaced]
      intro x hx
      obtain ⟨y, hy, rfl⟩ := List.mem_map.1 hx
      exact ih y hy

end Expr

end ConfigExpr
