import ConfigExpr.Proofs.PlacedParse
import ConfigExpr.Proofs.ScopeProperty

/-!
# Errors point into their source

A parse error is reported at a token or where a lexical error is. An evaluation reports its errors
at expressions and at the names and keys in them, of the program or of the closures it meets. So
the errors of a program with arguments that hold no closure lie in its source
(`Program.error_within`).
-/

namespace ConfigExpr

/-! ## Parse errors -/

/-- All tokens that a source is read as. -/
def SourceTokens.all (source : List Char) : SourceTokens source :=
  ⟨Spanned.ReadIn source, id⟩

namespace Program

theorem laid_withoutComments (source : String) :
    Laid (.all source.toList) 0 (bytes source.toList)
      (withoutComments (Tokens.ofText source).tokens) := by
  have hchain := (Cursor.start source.toList).tiles_tokens.chain
  rw [Cursor.start, Nat.zero_add] at hchain
  have hlaid : Laid (.all source.toList) 0 (bytes source.toList) (Tokens.ofText source).tokens :=
    ⟨hchain, Cursor.everywhere_tokens (.refl _)⟩
  exact hlaid.sublist List.filter_sublist

/-- A program stands with all its parts in the source it is parsed from, and a parse error lies in
the source too. -/
theorem parse_placed (source : String) :
    ResultMeets (fun e => e.span.Within source.toList)
      (fun p => p.expression.Everywhere (Expr.Placed source.toList)) (parse source) := by
  have hwhole := Expr.parseWhole_placed (laid_withoutComments source)
  unfold parse ofTokens
  generalize Expr.parseWhole (withoutComments (Tokens.ofText source).tokens) = o at hwhole
  cases hwhole with
  | ok hsits => exact .ok hsits.everywhere
  | error hf =>
    cases herror : (Tokens.ofText source).error with
    | none => exact .error hf.within
    | some e =>
      dsimp only
      split
      · exact .error (Cursor.within_of_error_eq_some (.refl _) herror)
      · exact .error hf.within

end Program

/-! ## Evaluation errors -/

theorem Expr.Part.mem_parts {e x : Expr} {names : List String} (h : e.Part names x) :
    x ∈ e.parts := by
  cases h with
  | operand hx =>
    cases e with
    | letIn | lambda => cases hx
    | _ => exact hx
  | binding => simp [parts]
  | body => simp [parts]
  | lambda => exact List.mem_singleton_self _

namespace ScopeProperty

/-- The places of the expression, its parts and the names and keys in them satisfy a property. -/
def places (g : Span → Prop) : ScopeProperty where
  holds _ e := e.Everywhere fun x => ∀ s ∈ x.span :: x.places, g s
  part h _ hpart := h.part hpart.mem_parts
  argument h _ hx := h.part (List.mem_cons_of_mem _ hx)
  callee h _ := h.part List.mem_cons_self

variable {g : Span → Prop}

theorem permits_places : (places g).Permits fun e => g e.span where
  unbound h _ := h.self _ List.mem_cons_self
  other h _ := h.self

end ScopeProperty

namespace Program

variable {p : Program} {g : Span → Prop}

open ScopeProperty

theorem within_places_of_parse {source : String} (h : parse source = .ok p) :
    p.expression.Everywhere fun x => ∀ s ∈ x.span :: x.places, s.Within source.toList := by
  have hplaced := parse_placed source
  rw [h] at hplaced
  cases hplaced with
  | ok hp => exact hp.imp fun _ hx => List.forall_mem_cons.2 ⟨hx.within, hx.row.within⟩

/-- If the places in a program and in the closures given satisfy a property, so do those in its
value or that of its error. -/
theorem settled_places {env : Env} (henv : (places g).GoodEnv (fun _ => True) env)
    (hp : p.expression.Everywhere fun x => ∀ s ∈ x.span :: x.places, g s) (run : Run)
    (limit : Nat) :
    (places g).Settled (fun _ => True) (fun e => g e.span) (p.evaluateIn run env limit) :=
  settled_evaluateIn permits_places trivial henv hp

theorem settled_places_with {arguments : List (String × Value)}
    (hfree : ∀ a ∈ arguments, a.2.ClosureFree)
    (hp : p.expression.Everywhere fun x => ∀ s ∈ x.span :: x.places, g s) (run : Run)
    (limit : Nat) :
    (places g).Settled (fun _ => True) (fun e => g e.span)
      (p.evaluateWith run arguments limit) := by
  refine settled_evaluateWith permits_places trivial hfree hp fun {c e} hc he => ?_
  -- The parameter that has no value stands in a lambda of the program.
  have hframes : ∀ f ∈ argumentEnv run arguments, f.value.ClosureFree :=
    fun f hf => hfree _ (mem_of_mem_argumentEnv hf)
  have hvalue := settled_places (goodEnv_of_closureFree hframes) hp run limit
  rw [hc] at hvalue
  obtain ⟨-, hlambda⟩ := hvalue c .closure
  obtain ⟨n, hn, -, rfl⟩ := exists_of_parameterValues_error he
  have hplace : n.span ∈ c.lambda.toExpr.places :=
    List.mem_append_left _ (List.mem_map_of_mem hn)
  exact hlambda.self _ (List.mem_cons_of_mem _ hplace)

/-- Every error lies in the source that it is reported against, whether the source cannot be parsed
or its program with arguments that hold no closure has no value. -/
theorem error_within (source : String) :
    (∀ e, parse source = .error e → e.span.Within source.toList) ∧
    ∀ p, parse source = .ok p → ∀ (run : Run) (arguments : List (String × Value)) (limit : Nat),
      (∀ a ∈ arguments, a.2.ClosureFree) → ∀ e,
      p.evaluateWith run arguments limit = .error e → e.span.Within source.toList := by
  refine ⟨fun e h => ?_, fun p h run arguments limit hfree e he => ?_⟩
  · have hplaced := parse_placed source
    rw [h] at hplaced
    cases hplaced with
    | error hwithin => exact hwithin
  · have hsettled := settled_places_with hfree (within_places_of_parse h) run limit
    rwa [he] at hsettled

/-- A second item without a comma before it, and a member of a list, in a closure that is applied in
a string. Both stand after a character of two bytes. -/
theorem error_within_string :
    (∃ e, parse "[\"é\" 1]" = .error e ∧ e.span = ⟨6, 7⟩ ∧ e.span.Within "[\"é\" 1]".toList) ∧
      ∃ p, parse "\"é $\x7b((y) => y.k)(x)\x7d\"" = .ok p ∧
        (∀ a ∈ [("x", Value.list [])], a.2.ClosureFree) ∧
        p.evaluateWith ⟨0, 0⟩ [("x", .list [])] 9 = .error ⟨.noMethod "k" .list, ⟨16, 17⟩⟩ ∧
        Span.Within ⟨16, 17⟩ "\"é $\x7b((y) => y.k)(x)\x7d\"".toList := by
  have herror : parse "[\"é\" 1]" = .error
      ⟨.unexpected (.int 1) [.mark .comma, .mark .closeBracket], ⟨6, 7⟩⟩ := by cbv
  let member : Expr := .member (.name ⟨"y", ⟨14, 15⟩⟩) ⟨"k", ⟨16, 17⟩⟩ ⟨14, 17⟩
  let call : Expr := .apply (.lambda [⟨"y", ⟨8, 9⟩⟩] member ⟨7, 17⟩) [.name ⟨"x", ⟨19, 20⟩⟩] ⟨7, 21⟩
  let p : Program := ⟨.template [.text "é ", .code call] ⟨0, 23⟩, []⟩
  have hparse : parse "\"é $\x7b((y) => y.k)(x)\x7d\"" = .ok p := by cbv
  have hfree : ∀ a ∈ [("x", Value.list [])], a.2.ClosureFree := by
    rintro a ha c hc
    obtain rfl := List.mem_singleton.1 ha
    cases hc with
    | item hv => cases hv
  have hmember : p.evaluateWith ⟨0, 0⟩ [("x", .list [])] 9 =
      .error ⟨.noMethod "k" .list, ⟨16, 17⟩⟩ := by cbv
  exact ⟨⟨_, herror, rfl, (error_within _).1 _ herror⟩, p, hparse, hfree, hmember,
    (error_within _).2 p hparse _ _ 9 hfree _ hmember⟩

end Program

end ConfigExpr
