import ConfigExpr.Proofs.Arguments
import ConfigExpr.Proofs.Correspondence

/-!
# Free names

An evaluation depends on its environment only through the names that are free in the expression
(`Program.shownAlike_of_free`). The closures of two runs have captured different environments. What
they agree on are the names free in their lambda, up to closures that agree in turn.
-/

namespace ConfigExpr

/-- Closures of one lambda whose environments agree on the names that are free in it. -/
inductive Closure.Agrees : Closure → Closure → Prop where
  | mk {c d : Closure} : c.lambda = d.lambda →
    (∀ x, c.lambda.toExpr.Free x → Option.Rel (Value.Related Closure.Agrees)
      (Env.lookup? c.env x) (Env.lookup? d.env x)) → Agrees c d

abbrev Env.AgreeOn (x : String) (a b : Env) : Prop :=
  Option.Rel (Value.Related Closure.Agrees) (a.lookup? x) (b.lookup? x)

mutual

theorem Value.agrees_self : ∀ v : Value, v.Related Closure.Agrees v
  | .int _ => .int
  | .float _ => .float
  | .string _ => .string
  | .bool _ => .bool
  | .list items => .list (Value.agrees_selfAll items)
  | .map fields => .map (Field.agrees_selfAll fields)
  | .closure ⟨_, _, env⟩ => .closure (.mk rfl fun x _ => Env.agreeOn_self env x)

theorem Value.agrees_selfAll : ∀ vs : List Value, List.Forall₂ (Value.Related Closure.Agrees) vs vs
  | [] => .nil
  | v :: vs => .cons (Value.agrees_self v) (Value.agrees_selfAll vs)

theorem Field.agrees_selfAll : ∀ fs : List Field,
    List.Forall₂ (Field.Related Closure.Agrees) fs fs
  | [] => .nil
  | ⟨_, v⟩ :: fs => .cons (.mk (Value.agrees_self v)) (Field.agrees_selfAll fs)

theorem Env.agreeOn_self : ∀ (env : List Frame) (x : String), Env.AgreeOn x env env
  | [], _ => .none
  | ⟨_, name, v⟩ :: env, x => by
    rw [Env.AgreeOn, Env.lookup?_cons]
    split
    · exact .some (Value.agrees_self v)
    · exact Env.agreeOn_self env x

end

theorem Env.agreeOn_of_eq {a b : Env} {x : String} (h : a.lookup? x = b.lookup? x) :
    Env.AgreeOn x a b := by
  rw [Env.AgreeOn, ← h]
  exact Env.agreeOn_self a x

/-- Where frames with the same names and related values stand before two environments, these need to
agree only on the other names. -/
theorem Env.related_append {sites : Site → Site → Prop} {C : Closure → Closure → Prop}
    {frames frames' : List Frame} {a b : Env} {x : String}
    (hframes : List.Forall₂ (Frame.Related sites C) frames frames')
    (h : x ∉ frames.map (·.name) →
      Option.Rel (Value.Related C) (a.lookup? x) (b.lookup? x)) :
    Option.Rel (Value.Related C) (lookup? (frames ++ a) x) (lookup? (frames' ++ b) x) := by
  induction hframes with
  | nil => exact h List.not_mem_nil
  | @cons f g fs gs hfg _ ih =>
    obtain ⟨hname, -, hvalue⟩ := hfg
    rw [List.cons_append, List.cons_append, lookup?_cons, lookup?_cons, ← hname]
    split
    next => exact .some hvalue
    next hne =>
      refine ih fun hx => h fun hmem => ?_
      rcases List.mem_cons.1 hmem with rfl | hmem
      · exact hne rfl
      · exact hx hmem

theorem Closure.Agrees.render_eq {c d : Closure} (h : c.Agrees d) : c.render = d.render := by
  obtain ⟨hlambda, -⟩ := h
  exact render_congr hlambda

/-- Evaluations in environments that agree on the free names of the expression. -/
def Correspondence.agreeing : Correspondence where
  toPlaces := .still
  programs _ _ := True
  sites _ _ := True
  frameSites _ _ := True
  closures := Closure.Agrees
  envs e a b := ∀ x, e.Free x → Env.AgreeOn x a b
  excused _ := False
  allowed _ := True
  sites_cons _ := trivial
  frameSites_cons _ := trivial
  closures_iff := by
    intro c d
    rw [Lambda.mapSpans_still]
    constructor
    · rintro ⟨hlambda, henv⟩
      exact ⟨hlambda.symm, trivial, henv⟩
    · rintro ⟨hlambda, -, henv⟩
      exact ⟨hlambda.symm, henv⟩
  lookup {n _ _} h := h n.text (.name rfl)
  allowed_unbound _ _ := trivial
  allowed_other _ _ _ _ := trivial
  callee := by
    intro f arguments s a b h
    have hf : ∀ x, f.Free x → Env.AgreeOn x a b := fun x hx =>
      h x (.part (.operand List.mem_cons_self) List.not_mem_nil hx)
    refine ⟨builtin?_eq_of_rel (fun n hn => hf n.text ?_) _, fun _ => hf⟩
    rw [hn]
    exact .name rfl
  argument := by
    intro f arguments s a b h x hx y hy
    exact h y (.part (.operand (List.mem_cons_of_mem f hx)) List.not_mem_nil hy)
  part := by
    -- A name free in a part is one that the frames bind, or free in the whole.
    intro e x a b frames frames' h _ hpart hframes y hy
    exact Env.related_append hframes fun hnot => h y (.part hpart hnot hy)

/-- The same error, or values that are shown alike and are the same if no closure is in them. -/
inductive ShownAlike : Except EvalError Value → Except EvalError Value → Prop where
  | error {e : EvalError} : ShownAlike (.error e) (.error e)
  | ok {v w : Value} : toString v = toString w → (v.ClosureFree → v = w) →
    ShownAlike (.ok v) (.ok w)

namespace Correspondence

instance : agreeing.Still := ⟨rfl⟩

theorem keeps_agreeing (limit depth : Nat) :
    agreeing.Keeps (Expr.eval limit depth) (Expr.eval limit depth) :=
  keeps_eval (fun _ => trivial) (fun _ => rfl) depth

end Correspondence

open Correspondence

theorem shownAlike_of_outcomes {x y : Except EvalError Value}
    (h : agreeing.Outcomes agreeing.Values x y) : ShownAlike x y := by
  cases h with
  | ok hvw =>
    refine .ok (hvw.toString_eq fun _ _ => Closure.Agrees.render_eq) fun hfree => ?_
    exact hvw.eq fun c _ hc _ => absurd hc (hfree c)
  | error => exact .error
  | excused he => exact he.elim

namespace Program

variable {p : Program} {run run' : Run} {limit : Nat}

theorem shownAlike_evaluateIn {a b : Env}
    (h : ∀ x, p.expression.Free x → a.lookup? x = b.lookup? x) :
    ShownAlike (p.evaluateIn run a limit) (p.evaluateIn run' b limit) :=
  shownAlike_of_outcomes (keeps_evaluateIn (keeps_agreeing limit limit) trivial trivial
    fun x hx => Env.agreeOn_of_eq (h x hx))

theorem parameterValues_congr {a b : Env} (h : ∀ x, a.lookup? x = b.lookup? x)
    (parameters : List Name) : parameterValues a parameters = parameterValues b parameters := by
  induction parameters with
  | nil => rfl
  | cons n parameters ih => rw [parameterValues_cons, parameterValues_cons, h, ih]

theorem shownAlike_of_lookup {arguments arguments' : List (String × Value)}
    (h : ∀ x, (argumentEnv run arguments).lookup? x = (argumentEnv run' arguments').lookup? x) :
    ShownAlike (p.evaluateWith run arguments limit) (p.evaluateWith run' arguments' limit) := by
  refine shownAlike_of_outcomes (keeps_evaluateWith (keeps_agreeing limit limit) trivial trivial
    (fun x _ => Env.agreeOn_of_eq (h x)) fun {c} _ => ?_)
  rw [parameterValues_congr h]
  cases parameterValues (argumentEnv run' arguments') c.lambda.parameters with
  | error e => exact .error trivial
  | ok values => exact .ok (Value.agrees_selfAll values)

theorem shownAlike_evaluateWith {arguments arguments' : List (String × Value)}
    (h : arguments.Perm arguments') (hnodup : (arguments.map (·.1)).Nodup) :
    ShownAlike (p.evaluateWith run arguments limit) (p.evaluateWith run' arguments' limit) :=
  shownAlike_of_lookup (lookup?_argumentEnv_perm h hnodup)

/-- With the same arguments all runs of a program have the same outcome. -/
theorem shownAlike_runs (p : Program) (run run' : Run) (arguments : List (String × Value))
    (limit : Nat) :
    ShownAlike (p.evaluateWith run arguments limit) (p.evaluateWith run' arguments limit) :=
  shownAlike_of_lookup (lookup?_argumentEnv run run' arguments)

/-- An outcome depends only on the values of the free names, and so not on the order of the
arguments. -/
theorem shownAlike_of_free (p : Program) (run run' : Run) (limit : Nat) :
    (∀ a b : Env, (∀ x, p.expression.Free x → a.lookup? x = b.lookup? x) →
      ShownAlike (p.evaluateIn run a limit) (p.evaluateIn run' b limit)) ∧
    ∀ arguments arguments' : List (String × Value), arguments.Perm arguments' →
      (arguments.map (·.1)).Nodup →
      ShownAlike (p.evaluateWith run arguments limit) (p.evaluateWith run' arguments' limit) :=
  ⟨fun _ _ => shownAlike_evaluateIn, fun _ _ => shownAlike_evaluateWith⟩

/-- A function of `y` uses `x` only. What `y` is bound to around it shows neither in its text nor in
its value, and the arguments may come in any order. -/
theorem shownAlike_of_free_function :
    ∃ p, parse "(y) => concat([x], [y])" = .ok p ∧
      (∀ x, p.expression.Free x → Env.lookup? [⟨[], "x", .int 5⟩, ⟨[], "y", .int 1⟩] x =
        Env.lookup? [⟨[], "y", .bool true⟩, ⟨[], "x", .int 5⟩] x) ∧
      ShownAlike (p.evaluateIn ⟨0, 0⟩ [⟨[], "x", .int 5⟩, ⟨[], "y", .int 1⟩] 9)
        (p.evaluateIn ⟨0, 1⟩ [⟨[], "y", .bool true⟩, ⟨[], "x", .int 5⟩] 9) ∧
      [("x", Value.int 5), ("y", .int 1)].Perm [("y", .int 1), ("x", .int 5)] ∧
      ["x", "y"].Nodup ∧
      p.evaluateWith ⟨0, 0⟩ [("x", .int 5), ("y", .int 1)] 9 = .ok (.list [.int 5, .int 1]) ∧
      ShownAlike (p.evaluateWith ⟨0, 0⟩ [("x", .int 5), ("y", .int 1)] 9)
        (p.evaluateWith ⟨0, 1⟩ [("y", .int 1), ("x", .int 5)] 9) := by
  let body : Expr := .apply (.name ⟨"concat", ⟨7, 13⟩⟩)
    [.list [.name ⟨"x", ⟨15, 16⟩⟩] ⟨14, 17⟩, .list [.name ⟨"y", ⟨20, 21⟩⟩] ⟨19, 22⟩] ⟨7, 23⟩
  let p : Program := ⟨.lambda [⟨"y", ⟨1, 2⟩⟩] body ⟨0, 23⟩, []⟩
  have hparse : parse "(y) => concat([x], [y])" = .ok p := by cbv
  have hlookup : ∀ x, p.expression.Free x →
      Env.lookup? [⟨[], "x", .int 5⟩, ⟨[], "y", .int 1⟩] x =
        Env.lookup? [⟨[], "y", .bool true⟩, ⟨[], "x", .int 5⟩] x := by
    intro x hx
    have hy : "y" ≠ x := fun h => (Expr.free_lambda_iff.1 hx).1 (h ▸ List.mem_singleton_self "y")
    by_cases h : "x" = x <;> simp [Env.lookup?, h, hy]
  have hperm : [("x", Value.int 5), ("y", .int 1)].Perm [("y", .int 1), ("x", .int 5)] :=
    .swap ..
  have hnodup : ["x", "y"].Nodup := by decide
  have hwith : p.evaluateWith ⟨0, 0⟩ [("x", .int 5), ("y", .int 1)] 9 =
      .ok (.list [.int 5, .int 1]) := by cbv
  obtain ⟨hin, horder⟩ := shownAlike_of_free p ⟨0, 0⟩ ⟨0, 1⟩ 9
  exact ⟨p, hparse, hlookup, hin _ _ hlookup, hperm, hnodup, hwith, horder _ _ hperm hnodup⟩

end Program

end ConfigExpr
