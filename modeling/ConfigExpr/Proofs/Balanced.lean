import ConfigExpr.Proofs.Grammar
import ConfigExpr.Token.Lexer

/-!
# Braces

The code in a string ends at the first brace that closes none inside it. The tokens of an
expression close exactly the braces they open (`Grammar.Expression.balanced`), so that brace is the
one after them.
-/

namespace ConfigExpr

/-- However many braces are open before the tokens, as many are open after them, and none of those
is closed in between. -/
def Balanced (us : List Token) : Prop :=
  ∀ depth, us.foldlM Token.depthAfter? depth = some depth

namespace Balanced

variable {t : Token} {us vs : List Token}

theorem nil : Balanced [] :=
  fun _ => rfl

theorem append (h : Balanced us) (h' : Balanced vs) : Balanced (us ++ vs) := by
  intro depth
  rw [List.foldlM_append, h depth]
  exact h' depth

theorem cons (ht : ∀ depth, t.depthAfter? depth = some depth) (h : Balanced us) :
    Balanced (t :: us) := by
  intro depth
  rw [List.foldlM_cons, ht depth]
  exact h depth

theorem braces (h : Balanced us) :
    Balanced (.mark .openBrace :: us ++ [.mark .closeBrace]) := by
  intro depth
  have hinner := h (depth + 1)
  have hopen : Token.depthAfter? depth (.mark .openBrace) = some (depth + 1) := rfl
  have hclose : Token.depthAfter? (depth + 1) (.mark .closeBrace) = some depth := rfl
  rw [List.cons_append, List.foldlM_cons, hopen]
  simp only [Option.bind_eq_bind, Option.bind_some, List.foldlM_append, hinner]
  rw [List.foldlM_cons, hclose]
  rfl

end Balanced

namespace Grammar

theorem balanced_nameTokens : ∀ names : List String, Balanced (nameTokens names)
  | [] => .nil
  | [_] => .cons (fun _ => rfl) .nil
  | _ :: name :: names =>
    .cons (fun _ => rfl) (.cons (fun _ => rfl) (balanced_nameTokens (name :: names)))

theorem Key.depthAfter? {t : Token} {key : Name} (h : Key t key) (depth : Nat) :
    t.depthAfter? depth = some depth := by
  cases h <;> rfl

theorem Separator.balanced {us : List Token} (h : Separator us) : Balanced us := by
  cases h with
  | none => exact .nil
  | comma => exact .cons (fun _ => rfl) .nil

mutual

theorem Expression.balanced : ∀ {us : List Token} {e : Expr}, Expression us e → Balanced us
  | _, _, .letIn _ hbs he =>
    .cons (fun _ => rfl) (.append hbs.balanced (.cons (fun _ => rfl) he.balanced))
  | _, _, .lambda _ _ he =>
    .cons (fun _ => rfl) (.append (balanced_nameTokens _)
      (.cons (fun _ => rfl) (.cons (fun _ => rfl) he.balanced)))
  | _, _, .chain hp ho => hp.balanced.append ho.balanced

theorem Primary.balanced : ∀ {us : List Token} {p : Expr}, Primary us p → Balanced us
  | _, _, .int _ | _, _, .float _ | _, _, .trueWord | _, _, .falseWord | _, _, .name _
  | _, _, .string _ _ => .cons (fun _ => rfl) .nil
  | _, _, .list ha =>
    .cons (fun _ => rfl) (.append ha.balanced (.cons (fun _ => rfl) .nil))
  | _, _, .map he => he.balanced.braces
  | _, _, .group he =>
    .cons (fun _ => rfl) (.append he.balanced (.cons (fun _ => rfl) .nil))

theorem Operators.balanced : ∀ {us : List Token} {p e : Expr}, Operators p us e → Balanced us
  | _, _, _, .none _ => .nil
  | _, _, _, .member _ _ ho => .cons (fun _ => rfl) (.cons (fun _ => rfl) ho.balanced)
  | _, _, _, .method _ ha ho =>
    .cons (fun _ => rfl) (.cons (fun _ => rfl) (.cons (fun _ => rfl)
      (.append ha.balanced (.cons (fun _ => rfl) ho.balanced))))
  | _, _, _, .index hk ho =>
    .cons (fun _ => rfl) (.append hk.balanced (.cons (fun _ => rfl) ho.balanced))
  | _, _, _, .apply ha ho =>
    .cons (fun _ => rfl) (.append ha.balanced (.cons (fun _ => rfl) ho.balanced))

theorem Arguments.balanced : ∀ {us : List Token} {es : List Expr}, Arguments us es → Balanced us
  | _, _, .none => .nil
  | _, _, .last he => he.balanced
  | _, _, .more he ha => he.balanced.append (.cons (fun _ => rfl) ha.balanced)

theorem Bindings.balanced : ∀ {us : List Token} {bs : List Binding}, Bindings us bs → Balanced us
  | _, _, .none => .nil
  | _, _, .more _ he hbs =>
    .cons (fun _ => rfl) (.cons (fun _ => rfl) (he.balanced.append hbs.balanced))

theorem Entries.balanced : ∀ {us : List Token} {es : List Entry}, Entries us es → Balanced us
  | _, _, .none => .nil
  | _, _, .more hk he hc hes =>
    (Balanced.cons hk.depthAfter? (.cons (fun _ => rfl) (he.balanced.append
      hc.balanced))).append hes.balanced

end

end Grammar

end ConfigExpr
