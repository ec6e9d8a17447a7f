import ConfigExpr.Proofs.Arguments
import ConfigExpr.Proofs.Correspondence
import ConfigExpr.Proofs.Redisplay

/-!
# Evaluation in another place

The evaluator puts the places of expressions into closures and errors and compares none of them, and
its limit is only named in an error. So an expression with its places moved, evaluated to the same
depth, has the same outcome: a value that is the same up to the places in its closures, or the same
fault at the place moved (`Relocation.keeps_eval`). Sites and program numbers are free on either
side.
-/

namespace ConfigExpr

/-- Where places are moved to, and what the limit is called on the two sides. -/
structure Relocation where
  place : Span → Span
  limit : Nat
  limit' : Nat

mutual

/-- The second closure is of the lambda moved, and has captured the same names with moved values. -/
inductive Closure.Moves (f : Span → Span) : Closure → Closure → Prop where
  | mk {c d : Closure} : d.lambda = c.lambda.mapSpans f →
    List.Forall₂ (Frame.Moves f) c.env d.env → Closure.Moves f c d

inductive Frame.Moves (f : Span → Span) : Frame → Frame → Prop where
  | mk {a b : Frame} : a.name = b.name → a.value.Related (Closure.Moves f) b.value →
    Frame.Moves f a b

end

theorem Closure.Moves.render_eq {f : Span → Span} {c d : Closure} (h : c.Moves f d) :
    c.render = d.render := by
  obtain ⟨hlambda, -⟩ := h
  obtain ⟨lambda, program, env⟩ := c
  obtain ⟨_, program', env'⟩ := d
  cases hlambda
  exact (Expr.render_mapSpans f lambda.toExpr).symm

namespace Relocation

section

variable (r : Relocation)

abbrev Values (v w : Value) : Prop := v.Related (Closure.Moves r.place) w

/-- The same names in the same order, bound to values that are the same up to places. -/
abbrev Envs (a b : Env) : Prop := List.Forall₂ (Frame.Moves r.place) a b

/-- Related results, or one fault at a place and where that is moved to. -/
inductive Outcomes {α β : Type} (R : α → β → Prop) :
    Except EvalError α → Except EvalError β → Prop where
  | ok {a : α} {b : β} : R a b → Outcomes R (.ok a) (.ok b)
  | fault (span : Span) {fault : EvalFault} : fault.isTooDeep = false →
    Outcomes R (.error ⟨fault, span⟩) (.error ⟨fault, r.place span⟩)
  | tooDeep (span : Span) :
    Outcomes R (.error ⟨.tooDeep r.limit, span⟩) (.error ⟨.tooDeep r.limit', r.place span⟩)

/-- The error on the right side. -/
def moved (e : EvalError) : EvalError :=
  ⟨if e.fault.isTooDeep then .tooDeep r.limit' else e.fault, r.place e.span⟩

end

variable {r : Relocation}

theorem lookup?_envs {a b : Env} (h : r.Envs a b) (name : String) :
    Option.Rel r.Values (a.lookup? name) (b.lookup? name) := by
  induction h with
  | nil => exact .none
  | cons hfg _ ih =>
    obtain ⟨hname, hvalue⟩ := hfg
    rw [Env.lookup?_cons, Env.lookup?_cons, ← hname]
    split
    · exact .some hvalue
    · exact ih

theorem names_envs {a b : Env} (h : r.Envs a b) : a.names = b.names := by
  induction h with
  | nil => rfl
  | cons hfg _ ih =>
    obtain ⟨hname, -⟩ := hfg
    exact congrArg₂ List.cons hname ih

theorem envs_of_frames {sites : Site → Site → Prop} {frames frames' : List Frame}
    (h : List.Forall₂ (Frame.Related sites (Closure.Moves r.place)) frames frames') :
    r.Envs frames frames' :=
  h.imp fun _ _ hfg => .mk hfg.1 hfg.2.2

/-- An evaluation beside one in another place. -/
def correspondence (r : Relocation) : Correspondence where
  place := r.place
  moved := r.moved
  programs _ _ := True
  sites _ _ := True
  frameSites _ _ := True
  closures := Closure.Moves r.place
  envs _ := r.Envs
  excused _ := False
  allowed e := e.fault.isTooDeep = true → e.fault = .tooDeep r.limit
  moved_eq h := by simp [Relocation.moved, h]
  sites_cons _ := trivial
  frameSites_cons _ := trivial
  closures_iff := by
    intro c d
    constructor
    · rintro ⟨hlambda, henv⟩
      exact ⟨hlambda, trivial, henv⟩
    · rintro ⟨hlambda, -, henv⟩
      exact ⟨hlambda, henv⟩
  lookup h := lookup?_envs h _
  allowed_unbound _ _ := nofun
  allowed_other _ hfault _ _ hdeep := by
    rw [EvalFault.isTooDeep_of_ofValues hfault] at hdeep
    cases hdeep
  callee h := ⟨builtin?_eq_of_rel (fun n _ => lookup?_envs h n.text) _, fun _ => h⟩
  argument h _ _ := h
  part _ _ h _ _ hframes := List.rel_append (envs_of_frames hframes) h

theorem outcomes_of_correspondence {α β : Type} {R : α → β → Prop} {x : Except EvalError α}
    {y : Except EvalError β} (h : r.correspondence.Outcomes R x y) : r.Outcomes R x y := by
  cases h with
  | ok hab => exact .ok hab
  | excused he => exact he.elim
  | @error e he =>
    obtain ⟨fault, span⟩ := e
    show r.Outcomes R _ (.error (r.moved ⟨fault, span⟩))
    rw [moved]
    cases hdeep : fault.isTooDeep with
    | true =>
      obtain rfl : fault = .tooDeep r.limit := he hdeep
      exact .tooDeep span
    | false => exact .fault span hdeep

variable (r) in
theorem keeps_eval (depth : Nat) :
    r.correspondence.Keeps (Expr.eval r.limit depth) (Expr.eval r.limit' depth) :=
  Correspondence.keeps_eval (fun _ _ => rfl) (fun _ => rfl) depth

/-- Leaves places as they are. -/
abbrev still (limit limit' : Nat) : Relocation := ⟨fun s => s, limit, limit'⟩

theorem keeps_still (limit limit' depth : Nat) (s s' : Scope)
    (h : (still limit limit').Envs s.env s'.env) (e : Expr) :
    (still limit limit').Outcomes (still limit limit').Values (Expr.eval limit depth s e)
      (Expr.eval limit' depth s' e) := by
  have hvalue := outcomes_of_correspondence
    ((still limit limit').keeps_eval depth (e := e) ⟨trivial, trivial, h⟩)
  rwa [show (still limit limit').correspondence.place = fun s => s from rfl,
    Expr.mapSpans_id] at hvalue

/-! ## Programs -/

theorem Values.toString_eq {v w : Value} (h : r.Values v w) : toString v = toString w :=
  Value.Related.toString_eq h fun _ _ => Closure.Moves.render_eq

theorem Values.eq_of_closureFree {v w : Value} (h : r.Values v w) (hv : v.ClosureFree) : v = w :=
  Value.Related.eq h fun c _ hc => absurd hc (hv c)

theorem Values.eq_of_closureFree_right {v w : Value} (h : r.Values v w) (hw : w.ClosureFree) :
    v = w :=
  (Value.Related.eq (Value.Related.flip h) fun c _ hc => absurd hc (hw c)).symm

theorem values_self {v : Value} (h : v.ClosureFree) : r.Values v v :=
  .self fun c hc => absurd hc (h c)

theorem envs_bindAll {s s' : Scope} (h : r.Envs s.env s'.env) (k : Nat)
    {arguments : List (String × Value)} (harguments : ∀ x ∈ arguments, x.2.ClosureFree) :
    r.Envs (s.bindAll k arguments).env (s'.bindAll k arguments).env := by
  induction arguments generalizing s s' k with
  | nil => exact h
  | cons x arguments ih =>
    obtain ⟨name, v⟩ := x
    obtain ⟨hv, hrest⟩ := List.forall_mem_cons.1 harguments
    have hbind : r.Envs (s.bind k name v).env (s'.bind k name v).env :=
      .cons (.mk rfl (values_self hv)) h
    exact ih hbind (k + 1) hrest

theorem keeps_parameterValues {a b : Env} (h : r.Envs a b) (parameters : List Name) :
    r.correspondence.Outcomes (List.Forall₂ r.Values) (Program.parameterValues a parameters)
      (Program.parameterValues b (parameters.map (·.mapSpan r.place))) := by
  induction parameters with
  | nil => exact .ok .nil
  | cons n parameters ih =>
    have hvalue := lookup?_envs h n.text
    rw [List.map_cons, Program.parameterValues_cons, Program.parameterValues_cons]
    simp only [Name.mapSpan]
    generalize a.lookup? n.text = x, b.lookup? n.text = y at hvalue
    cases hvalue with
    | none =>
      show r.correspondence.Outcomes _ _ (.error (r.moved ⟨.unbound n.text, n.span⟩))
      exact .error nofun
    | some hvw => exact ih.bind fun hvs => .ok (.cons hvw hvs)

section

variable {p q : Program} {place : Span → Span}
  (hpq : q.expression = p.expression.mapSpans place) (run run' : Run) (limit : Nat)

include hpq

theorem keeps_evaluateIn {a b : Env} (h : Envs ⟨place, limit, limit⟩ a b) :
    Outcomes ⟨place, limit, limit⟩ (Values ⟨place, limit, limit⟩) (p.evaluateIn run a limit)
      (q.evaluateIn run' b limit) :=
  outcomes_of_correspondence (Correspondence.keeps_evaluateIn_moved
    (keeps_eval ⟨place, limit, limit⟩ limit) trivial trivial hpq h)

theorem keeps_evaluateWith {arguments : List (String × Value)}
    (h : ∀ x ∈ arguments, x.2.ClosureFree) :
    Outcomes ⟨place, limit, limit⟩ (Values ⟨place, limit, limit⟩)
      (p.evaluateWith run arguments limit) (q.evaluateWith run' arguments limit) := by
  have henvs : Envs ⟨place, limit, limit⟩ (Program.argumentEnv run arguments)
      (Program.argumentEnv run' arguments) := envs_bindAll .nil 0 h
  exact outcomes_of_correspondence (Correspondence.keeps_evaluateWith_moved
    (keeps_eval ⟨place, limit, limit⟩ limit) trivial trivial hpq henvs
    fun {c} _ => keeps_parameterValues henvs c.lambda.parameters)

end

end Relocation

end ConfigExpr
