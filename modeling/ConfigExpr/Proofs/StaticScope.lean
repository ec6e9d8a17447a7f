import ConfigExpr.Proofs.ScopeProperty

/-!
# Static scope

Where a lambda stands decides which names its closures have captured: those of the binders around
it, innermost first, and then those of the environment that the program was evaluated in. And if
each name has a binder, or an argument, or is that of a built-in function in call position, then no
evaluation meets a name that is not bound (`Program.static_scope`).
-/

namespace ConfigExpr

/-- Each name in an expression is bound around it or among the names given, or stands in call
position for a built-in function. -/
inductive Expr.Scoped : List String → Expr → Prop where
  | name {names : List String} {n : Name} : n.text ∈ names → Scoped names (.name n)
  | builtin {names : List String} {n : Name} {arguments : List Expr} {s : Span} :
    Builtin.ofName? n.text ≠ none → (∀ x ∈ arguments, Scoped names x) →
    Scoped names (.apply (.name n) arguments s)
  | parts {names : List String} {e : Expr} :
    (∀ n, e ≠ .name n) → (∀ inner x, e.Part inner x → Scoped (inner ++ names) x) → Scoped names e

theorem Expr.Scoped.mono {names names' : List String} {e : Expr} (h : e.Scoped names)
    (hsubset : names ⊆ names') : e.Scoped names' := by
  induction h generalizing names' with
  | name hn => exact .name (hsubset hn)
  | builtin hb _ ih => exact .builtin hb fun x hx => ih x hx hsubset
  | parts he _ ih =>
    refine .parts he fun inner x hpart => ih inner x hpart (List.append_subset.2 ⟨?_, ?_⟩)
    · exact List.subset_append_left inner names'
    · exact List.Subset.trans hsubset (List.subset_append_right inner names')

theorem Expr.Scoped.lambda {names : List String} {parameters : List Name} {body : Expr} {s : Span}
    (h : body.Scoped ((parameters.map (·.text)).reverse ++ names)) :
    (Expr.lambda parameters body s).Scoped names := by
  refine .parts nofun fun inner x hpart => ?_
  cases hpart with
  | operand hx => cases hx
  | lambda => exact h

theorem Expr.Scoped.apply {names : List String} {f : Expr} {arguments : List Expr} {s : Span}
    (hf : f.Scoped names) (h : ∀ x ∈ arguments, x.Scoped names) :
    (Expr.apply f arguments s).Scoped names := by
  refine .parts nofun fun inner x hpart => ?_
  cases hpart with
  | operand hx =>
    rcases List.mem_cons.1 hx with rfl | hx
    · exact hf
    · exact h x hx

theorem Expr.Scoped.list {names : List String} {items : List Expr} {s : Span}
    (h : ∀ x ∈ items, x.Scoped names) : (Expr.list items s).Scoped names := by
  refine .parts nofun fun inner x hpart => ?_
  cases hpart with
  | operand hx => exact h x hx

theorem Expr.Scoped.mem {names : List String} {n : Name} (h : (Expr.name n).Scoped names) :
    n.text ∈ names := by
  cases h with
  | name hn => exact hn
  | parts hne => exact absurd rfl (hne n)

namespace ScopeProperty

/-- An expression stands in the whole one, which is evaluated where the names `root` are bound. -/
def stands (whole : Expr) (root : List String) : ScopeProperty where
  holds names e := ∃ inner, whole.Stands inner e ∧ names = inner ++ root
  part := by
    rintro _ inner e x ⟨outer, hstands, rfl⟩ - hpart
    exact ⟨inner ++ outer, .part hstands hpart, (List.append_assoc ..).symm⟩
  argument := by
    rintro _ f arguments s ⟨outer, hstands, rfl⟩ x hx
    exact ⟨outer, .part hstands (.operand (List.mem_cons_of_mem f hx)), rfl⟩
  callee := by
    rintro _ f arguments s ⟨outer, hstands, rfl⟩ -
    exact ⟨outer, .part hstands (.operand List.mem_cons_self), rfl⟩

/-- Each name in the expression has a binder or is that of a built-in function in call position. -/
def wellScoped : ScopeProperty where
  holds names e := e.Scoped names
  part := by
    intro names inner e x hscoped hne hpart
    cases hscoped with
    | name =>
      cases hpart with
      | operand hx => cases hx
    | builtin => exact absurd rfl (hne _ _ _)
    | parts _ hparts => exact hparts inner x hpart
  argument := by
    intro names f arguments s hscoped x hx
    cases hscoped with
    | builtin _ harguments => exact harguments x hx
    | parts _ hparts => exact hparts [] x (.operand (List.mem_cons_of_mem f hx))
  callee := by
    intro names f arguments s hscoped hfree
    cases hscoped with
    | @builtin _ n _ _ hb =>
      -- Where the name of a built-in function is bound it is evaluated like any other name.
      by_cases hn : n.text ∈ names
      · exact .name hn
      · exact absurd (hfree n rfl hn) hb
    | parts _ hparts => exact hparts [] f (.operand List.mem_cons_self)

end ScopeProperty

namespace Program

/-- The closures in a value are those of lambdas of the program. Each has captured the names of the
binders around its lambda, innermost first, and then those of the outermost environment. -/
def Captures (p : Program) (run : Run) (root : List String) (v : Value) : Prop :=
  ∀ c, v.Contains c → c.program = run.program ∧
    ∃ names, p.expression.Stands names c.lambda.toExpr ∧ Env.names c.env = names ++ root

section

variable {p : Program} {run : Run} {limit : Nat}

theorem captures_of_evaluateIn {env : Env} {v : Value} (hfree : ∀ f ∈ env, f.value.ClosureFree)
    (h : p.evaluateIn run env limit = .ok v) : p.Captures run env.names v := by
  have hsettled : (ScopeProperty.stands p.expression env.names).Settled (· = run.program)
      (fun _ => True) (p.evaluateIn run env limit) :=
    ScopeProperty.settled_evaluateIn ScopeProperty.permits_all (by rfl)
      (ScopeProperty.goodEnv_of_closureFree hfree) ⟨[], .whole, rfl⟩
  rwa [h] at hsettled

theorem captures_of_evaluateWith {arguments : List (String × Value)} {v : Value}
    (hfree : ∀ a ∈ arguments, a.2.ClosureFree) (h : p.evaluateWith run arguments limit = .ok v) :
    p.Captures run (argumentEnv run arguments).names v := by
  have hsettled : (ScopeProperty.stands p.expression (argumentEnv run arguments).names).Settled
      (· = run.program) (fun _ => True) (p.evaluateWith run arguments limit) :=
    ScopeProperty.settled_evaluateWith ScopeProperty.permits_all (by rfl) hfree
      ⟨[], .whole, rfl⟩ fun _ _ => trivial
  rwa [h] at hsettled

/-- In a well scoped expression every name that is evaluated is bound. -/
theorem evaluateIn_ne_unbound {env : Env} (hfree : ∀ f ∈ env, f.value.ClosureFree)
    (hscoped : p.expression.Scoped env.names) (name : String) (span : Span) :
    p.evaluateIn run env limit ≠ .error ⟨.unbound name, span⟩ := by
  intro h
  have hsettled : ScopeProperty.wellScoped.Settled (· = run.program)
      (fun e => ∀ name, e.fault ≠ .unbound name) (p.evaluateIn run env limit) :=
    ScopeProperty.settled_evaluateIn
      ⟨fun hn hnot => absurd (Expr.Scoped.mem hn) hnot, fun _ hfault _ _ => hfault⟩ (by rfl)
      (ScopeProperty.goodEnv_of_closureFree hfree) hscoped
  rw [h] at hsettled
  exact hsettled name rfl

theorem unbound_of_evaluateWith {arguments : List (String × Value)}
    (hfree : ∀ a ∈ arguments, a.2.ClosureFree)
    (hscoped : p.expression.Scoped (arguments.map (·.1))) {name : String} {span : Span}
    (h : p.evaluateWith run arguments limit = .error ⟨.unbound name, span⟩) :
    ∃ c, p.evaluateIn run (argumentEnv run arguments) limit = .ok (.closure c) ∧
      ⟨name, span⟩ ∈ c.lambda.parameters ∧ name ∉ arguments.map (·.1) := by
  have hroot : p.expression.Scoped (argumentEnv run arguments).names := by
    rw [names_argumentEnv]
    exact hscoped.mono fun x hx => List.mem_reverse.2 hx
  have hsettled : ScopeProperty.wellScoped.Settled (· = run.program)
      (fun e => ∀ name, e.fault = .unbound name →
        ∃ c, p.evaluateIn run (argumentEnv run arguments) limit = .ok (.closure c) ∧
          ⟨name, e.span⟩ ∈ c.lambda.parameters ∧ name ∉ arguments.map (·.1))
      (p.evaluateWith run arguments limit) := by
    refine ScopeProperty.settled_evaluateWith
      ⟨fun hn hnot => absurd (Expr.Scoped.mem hn) hnot,
        fun _ hfault _ _ name hname => absurd hname (hfault name)⟩ (by rfl) hfree
      hroot fun {c e} hc he name hname => ?_
    obtain ⟨n, hn, hnot, rfl⟩ := exists_of_parameterValues_error he
    cases hname
    rw [names_argumentEnv, List.mem_reverse] at hnot
    exact ⟨c, hc, hn, hnot⟩
  rw [h] at hsettled
  exact hsettled name rfl

end

/-- Static scope governs a run whose outermost environment holds no closures. Each closure in its
value has captured the names around its lambda. And if each name in the program is bound where it
stands, none is found unbound, but for a parameter that no argument has the name of, when the
program ends in a closure. -/
theorem static_scope (p : Program) (run : Run) (limit : Nat) :
    (∀ env : Env, (∀ f ∈ env, f.value.ClosureFree) →
      (∀ v, p.evaluateIn run env limit = .ok v → p.Captures run env.names v) ∧
      (p.expression.Scoped env.names → ∀ name span,
        p.evaluateIn run env limit ≠ .error ⟨.unbound name, span⟩)) ∧
    ∀ arguments : List (String × Value), (∀ a ∈ arguments, a.2.ClosureFree) →
      (∀ v, p.evaluateWith run arguments limit = .ok v →
        p.Captures run (argumentEnv run arguments).names v) ∧
      (p.expression.Scoped (arguments.map (·.1)) → ∀ name span,
        p.evaluateWith run arguments limit = .error ⟨.unbound name, span⟩ →
          ∃ c, p.evaluateIn run (argumentEnv run arguments) limit = .ok (.closure c) ∧
            ⟨name, span⟩ ∈ c.lambda.parameters ∧ name ∉ arguments.map (·.1)) := by
  refine ⟨fun env hfree => ⟨fun v => ?_, fun hscoped => ?_⟩,
    fun arguments hfree => ⟨fun v => ?_, fun hscoped name span => ?_⟩⟩
  · exact captures_of_evaluateIn hfree
  · exact evaluateIn_ne_unbound hfree hscoped
  · exact captures_of_evaluateWith hfree
  · exact unbound_of_evaluateWith hfree hscoped

/-- A function of `x` made where `k` and `z` are bound gives one of `y`. Without an argument `x` it
cannot be applied. -/
theorem static_scope_curried :
    ∃ p, parse "((k) => (x) => (y) => concat([x], [z, k]))(z)" = .ok p ∧
      p.expression.Scoped ["z"] ∧
      (∃ c : Closure, p.evaluateIn ⟨0, 0⟩ [⟨[], "z", .int 5⟩] 9 = .ok (.closure c) ∧
        Env.names c.env = ["k", "z"] ∧ p.Captures ⟨0, 0⟩ ["z"] (.closure c)) ∧
      (∀ name span,
        p.evaluateIn ⟨0, 0⟩ [⟨[], "z", .int 5⟩] 9 ≠ .error ⟨.unbound name, span⟩) ∧
      (∃ c : Closure,
        p.evaluateWith ⟨0, 0⟩ [("x", .int 2), ("z", .int 5)] 9 = .ok (.closure c) ∧
        Env.names c.env = ["x", "k", "z", "x"] ∧ p.Captures ⟨0, 0⟩ ["z", "x"] (.closure c)) ∧
      p.evaluateWith ⟨0, 0⟩ [("z", .int 5)] 9 = .error ⟨.unbound "x", ⟨9, 10⟩⟩ ∧
      ∃ c : Closure,
        p.evaluateIn ⟨0, 0⟩ (argumentEnv ⟨0, 0⟩ [("z", .int 5)]) 9 = .ok (.closure c) ∧
        ⟨"x", ⟨9, 10⟩⟩ ∈ c.lambda.parameters ∧ "x" ∉ ["z"] := by
  let first : Expr := .list [.name ⟨"x", ⟨30, 31⟩⟩] ⟨29, 32⟩
  let second : Expr := .list [.name ⟨"z", ⟨35, 36⟩⟩, .name ⟨"k", ⟨38, 39⟩⟩] ⟨34, 40⟩
  let body : Expr := .apply (.name ⟨"concat", ⟨22, 28⟩⟩) [first, second] ⟨22, 41⟩
  let ofY : Lambda := ⟨[⟨"y", ⟨16, 17⟩⟩], body, ⟨15, 41⟩⟩
  let ofX : Lambda := ⟨[⟨"x", ⟨9, 10⟩⟩], ofY.toExpr, ⟨8, 41⟩⟩
  let ofK : Lambda := ⟨[⟨"k", ⟨2, 3⟩⟩], ofX.toExpr, ⟨1, 41⟩⟩
  let p : Program := ⟨.apply ofK.toExpr [.name ⟨"z", ⟨43, 44⟩⟩] ⟨1, 45⟩, []⟩
  have hparse : parse "((k) => (x) => (y) => concat([x], [z, k]))(z)" = .ok p := by cbv
  have hfirst : first.Scoped ["y", "x", "k", "z"] :=
    .list (List.forall_mem_singleton.2 (.name (by decide)))
  have hsecond : second.Scoped ["y", "x", "k", "z"] :=
    .list (List.forall_mem_cons.2
      ⟨.name (by decide), List.forall_mem_singleton.2 (.name (by decide))⟩)
  have hbody : body.Scoped ["y", "x", "k", "z"] :=
    .builtin (by decide) (List.forall_mem_cons.2 ⟨hfirst, List.forall_mem_singleton.2 hsecond⟩)
  have hscoped : p.expression.Scoped ["z"] :=
    .apply (.lambda (.lambda (.lambda hbody)))
      (List.forall_mem_singleton.2 (.name (by decide)))
  have hint (v : Int64) : (Value.int v).ClosureFree := by
    intro c hc
    cases hc
  have hin : p.evaluateIn ⟨0, 0⟩ [⟨[], "z", .int 5⟩] 9 =
      .ok (.closure ⟨ofX, 0, [⟨[0, 2, 0, 0], "k", .int 5⟩, ⟨[], "z", .int 5⟩]⟩) := by cbv
  have hwith : p.evaluateWith ⟨0, 0⟩ [("x", .int 2), ("z", .int 5)] 9 =
      .ok (.closure ⟨ofY, 0, [⟨[0, 1, 0], "x", .int 2⟩, ⟨[0, 2, 0, 0], "k", .int 5⟩,
        ⟨[1, 0], "z", .int 5⟩, ⟨[0, 0], "x", .int 2⟩]⟩) := by cbv
  have hmissing : p.evaluateWith ⟨0, 0⟩ [("z", .int 5)] 9 = .error ⟨.unbound "x", ⟨9, 10⟩⟩ := by
    cbv
  obtain ⟨hcapturesIn, hboundIn⟩ := (static_scope p ⟨0, 0⟩ 9).1 [⟨[], "z", .int 5⟩]
    (List.forall_mem_singleton.2 (hint 5))
  obtain ⟨hcapturesWith, -⟩ := (static_scope p ⟨0, 0⟩ 9).2 [("x", .int 2), ("z", .int 5)]
    (List.forall_mem_cons.2 ⟨hint 2, List.forall_mem_singleton.2 (hint 5)⟩)
  obtain ⟨-, hboundWith⟩ := (static_scope p ⟨0, 0⟩ 9).2 [("z", .int 5)]
    (List.forall_mem_singleton.2 (hint 5))
  exact ⟨p, hparse, hscoped, ⟨_, hin, rfl, hcapturesIn _ hin⟩, hboundIn hscoped,
    ⟨_, hwith, rfl, hcapturesWith _ hwith⟩, hmissing, hboundWith hscoped _ _ hmissing⟩

end Program

end ConfigExpr
