import ConfigExpr.Proofs.MovedParse
import ConfigExpr.Proofs.Relocation

/-!
# Layout

Sources with the same tokens up to positions mean the same, wherever blanks, line feeds and comments
stand between the tokens: both parse to the same expression up to positions, or fail alike, and the
two expressions have the same outcomes but for the places of errors (`Program.alike_of_tokens`).
Either side is compared with the expression without places.
-/

namespace ConfigExpr

def ParseFault.unplaced (fault : ParseFault) : ParseFault :=
  fault.mapSpans fun _ => .nowhere

/-- Values that are shown alike and are the same if one holds no closure, or one fault, wherever it
shows. -/
inductive AlikeButPlaces : Except EvalError Value → Except EvalError Value → Prop where
  | value {v w : Value} : toString v = toString w → (v.ClosureFree ∨ w.ClosureFree → v = w) →
    AlikeButPlaces (.ok v) (.ok w)
  | error (fault : EvalFault) (span span' : Span) :
    AlikeButPlaces (.error ⟨fault, span⟩) (.error ⟨fault, span'⟩)

/-! ## Parsing -/

theorem Spanned.moveAll_eq {ts us : List Spanned}
    (h : ts.map (·.token.unplaced) = us.map (·.token.unplaced)) :
    moveAll (fun _ => 0) ts = moveAll (fun _ => 0) us := by
  have hmap : ∀ ts : List Spanned, moveAll (fun _ => 0) ts =
      (ts.map (·.token.unplaced)).map (⟨·, .nowhere⟩) := fun ts => by
    rw [moveAll, Spanned.mapSpansAll_eq_map, List.map_map]
    exact List.map_congr_left fun t _ => by cases t; rfl
  rw [hmap, hmap, h]

theorem ParseError.Moves.fault_eq {e e' : ParseError} (h : e.Moves (fun _ => 0) e') :
    e'.fault = e.fault.unplaced := by
  rcases h with rfl | ⟨he, he'⟩
  · rfl
  · rw [he, he']
    rfl

namespace Program

/-- The two sources are read as the same tokens up to positions, without an error. -/
structure SameTokens (a b : String) : Prop where
  left : (Tokens.ofText a).error = none
  right : (Tokens.ofText b).error = none
  tokens : (withoutComments (Tokens.ofText a).tokens).map (·.token.unplaced) =
    (withoutComments (Tokens.ofText b).tokens).map (·.token.unplaced)

theorem SameTokens.parse {a b : String} (h : SameTokens a b) :
    (∃ p q, Program.parse a = .ok p ∧ Program.parse b = .ok q ∧
      p.expression.Alike q.expression) ∨
    ∃ e e', Program.parse a = .error e ∧ Program.parse b = .error e' ∧
      e.fault.unplaced = e'.fault.unplaced := by
  obtain ⟨ha, hb, htokens⟩ := h
  rw [Program.parse, Program.parse, ofTokens, ofTokens, ha, hb]
  have hleft := Expr.parseWhole_moves (fun _ => 0) (withoutComments (Tokens.ofText a).tokens)
  have hright := Expr.parseWhole_moves (fun _ => 0) (withoutComments (Tokens.ofText b).tokens)
  rw [← Spanned.moveAll_eq htokens] at hright
  generalize Expr.parseWhole (withoutComments (Tokens.ofText a).tokens) = x at hleft ⊢
  generalize Expr.parseWhole (withoutComments (Tokens.ofText b).tokens) = y at hright ⊢
  generalize Expr.parseWhole (Spanned.moveAll _ _) = z at hleft hright
  cases hleft with
  | ok hleft =>
    cases hright with
    | ok hright => exact .inl ⟨_, _, rfl, rfl, hleft.symm.trans hright⟩
  | error hleft =>
    cases hright with
    | error hright =>
      exact .inr ⟨_, _, rfl, rfl, hleft.error.fault_eq.symm.trans hright.error.fault_eq⟩

/-! ## Evaluation -/

theorem alikeButPlaces_evaluateWith {p q : Program} (h : p.expression.Alike q.expression)
    (run run' : Run) {arguments : List (String × Value)}
    (harguments : ∀ x ∈ arguments, x.2.ClosureFree) (limit : Nat) :
    AlikeButPlaces (p.evaluateWith run arguments limit)
      (q.evaluateWith run' arguments limit) := by
  have hleft := Relocation.keeps_evaluateWith (p := p) (q := ⟨p.expression.unplaced, []⟩) rfl run
    ⟨0, 0⟩ limit harguments
  have hright := Relocation.keeps_evaluateWith (p := q) (q := ⟨p.expression.unplaced, []⟩) h run'
    ⟨0, 0⟩ limit harguments
  generalize p.evaluateWith run arguments limit = x at hleft ⊢
  generalize q.evaluateWith run' arguments limit = y at hright ⊢
  generalize evaluateWith _ _ _ _ = z at hleft hright
  cases hleft with
  | ok hvu =>
    cases hright with
    | ok hwu =>
      refine .value (hvu.toString_eq.trans hwu.toString_eq.symm) ?_
      rintro (hfree | hfree)
      · obtain rfl := Relocation.Values.eq_of_closureFree hvu hfree
        exact (Relocation.Values.eq_of_closureFree_right hwu hfree).symm
      · obtain rfl := Relocation.Values.eq_of_closureFree hwu hfree
        exact Relocation.Values.eq_of_closureFree_right hvu hfree
  | fault | tooDeep => cases hright <;> exact .error _ _ _

/-- Sources with the same tokens up to positions parse alike, and where they parse, their programs
have the same outcomes with the same arguments. -/
theorem alike_of_tokens {a b : String} (h : SameTokens a b) :
    (∃ p q, Program.parse a = .ok p ∧ Program.parse b = .ok q ∧
      p.expression.Alike q.expression ∧
      ∀ (run run' : Run) (arguments : List (String × Value)) (limit : Nat),
        (∀ x ∈ arguments, x.2.ClosureFree) →
        AlikeButPlaces (p.evaluateWith run arguments limit)
          (q.evaluateWith run' arguments limit)) ∨
    ∃ e e', Program.parse a = .error e ∧ Program.parse b = .error e' ∧
      e.fault.unplaced = e'.fault.unplaced := by
  rcases h.parse with ⟨p, q, hp, hq, halike⟩ | hfails
  · exact .inl ⟨p, q, hp, hq, halike, fun run run' arguments limit harguments =>
      alikeButPlaces_evaluateWith halike run run' harguments limit⟩
  · exact .inr hfails

set_option maxRecDepth 8000 in
/-- A string with code in it, once with blanks around the code and a comment at the end. -/
theorem alike_of_tokens_template :
    SameTokens "\"$\x7bx\x7d\"" "\"$\x7b x \x7d\" # x" ∧ (Value.int 1).ClosureFree ∧
      ∃ p q, Program.parse "\"$\x7bx\x7d\"" = .ok p ∧
        Program.parse "\"$\x7b x \x7d\" # x" = .ok q ∧ p.expression.Alike q.expression ∧
        p.evaluateWith ⟨0, 0⟩ [("x", .int 1)] 9 = .ok (.string "1") ∧
        AlikeButPlaces (p.evaluateWith ⟨0, 0⟩ [("x", .int 1)] 9)
          (q.evaluateWith ⟨1, 0⟩ [("x", .int 1)] 9) := by
  have hsame : SameTokens "\"$\x7bx\x7d\"" "\"$\x7b x \x7d\" # x" :=
    ⟨by cbv, by cbv, by cbv⟩
  have hfree : (Value.int 1).ClosureFree := by
    rintro c ⟨⟩
  have hparse : Program.parse "\"$\x7bx\x7d\"" =
      .ok ⟨.template [.code (.name ⟨"x", ⟨3, 4⟩⟩)] ⟨0, 6⟩, []⟩ := by cbv
  rcases alike_of_tokens hsame with ⟨p, q, hp, hq, halike, hwith⟩ | ⟨e, e', he, -⟩
  · have hvalue : p.evaluateWith ⟨0, 0⟩ [("x", .int 1)] 9 = .ok (.string "1") := by
      cases hp.symm.trans hparse
      cbv
    refine ⟨hsame, hfree, p, q, hp, hq, halike, hvalue, hwith _ _ _ _ fun x hx => ?_⟩
    rwa [List.mem_singleton.1 hx]
  · cases he.symm.trans hparse

end Program

end ConfigExpr
