import ConfigExpr.Proofs.ScopeProperty

/-!
# Raising the limit

An evaluation that ends other than for nesting too deeply ends in the same way under every higher
limit, in a value or in an error (`Program.outcome_of_limit_le`).
-/

namespace ConfigExpr

/-- An outcome other than the failure for nesting too deeply. -/
def Finished (x : Except EvalError Value) : Prop :=
  ∀ limit span, x ≠ .error ⟨.tooDeep limit, span⟩

theorem finished_ok (v : Value) : Finished (.ok v) := by
  intro limit span h
  cases h

theorem finished_error {e : EvalError} (h : ∀ limit, e.fault ≠ .tooDeep limit) :
    Finished (.error e) := by
  rintro limit span ⟨⟩
  exact h limit rfl

def ScopeProperty.always : ScopeProperty where
  holds _ _ := True
  part _ _ _ := trivial
  argument _ _ _ := trivial
  callee _ _ := trivial

namespace Correspondence

/-- An evaluation beside itself under a higher limit. -/
def raising : Correspondence :=
  ScopeProperty.always.correspondence (fun _ => True) (fun e => ∃ limit, e.fault = .tooDeep limit)
    ScopeProperty.permits_all

instance : raising.Still := ⟨rfl⟩

theorem good_always (c : Closure) : ScopeProperty.always.Good (fun _ => True) c :=
  ⟨trivial, trivial⟩

theorem raising_envs (e : Expr) (env : Env) : raising.envs e env env :=
  ⟨rfl, trivial, fun _ _ c _ => good_always c⟩

theorem raising_self (v : Value) : raising.Values v v :=
  ScopeProperty.related_self fun c _ => good_always c

theorem keeps_raising {limit limit' depth depth' : Nat} (hle : depth ≤ depth') :
    raising.Keeps (Expr.eval limit depth) (Expr.eval limit' depth') :=
  keeps_eval_of_le (r := raising) (fun _ => ⟨limit, rfl⟩) hle

theorem eq_of_finished {x y : Except EvalError Value} (h : raising.Outcomes raising.Values x y)
    (hx : Finished x) : y = x := by
  cases h with
  | ok hvw => rw [(ScopeProperty.eq_of_related hvw).1]
  | error => rfl
  | @excused e _ he =>
    obtain ⟨limit, hfault⟩ := he
    obtain ⟨fault, span⟩ := e
    cases hfault
    exact absurd rfl (hx limit span)

end Correspondence

open Correspondence

theorem raising_parameterValues (env : Env) : ∀ parameters : List Name,
    raising.Outcomes (List.Forall₂ raising.Values) (Program.parameterValues env parameters)
      (Program.parameterValues env parameters) := by
  intro parameters
  generalize Program.parameterValues env parameters = x
  cases x with
  | error => exact .error trivial
  | ok values => exact .ok (List.forall₂_same.2 fun v _ => raising_self v)

/-- Raising the limit never changes an outcome: not that of a program, and not that of a closure
applied at any level of nesting. -/
theorem Program.outcome_of_limit_le {limit limit' : Nat} (hle : limit ≤ limit') :
    (∀ (p : Program) (run : Run) (env : Env), Finished (p.evaluateIn run env limit) →
      p.evaluateIn run env limit' = p.evaluateIn run env limit) ∧
    (∀ (p : Program) (run : Run) (arguments : List (String × Value)),
      Finished (p.evaluateWith run arguments limit) →
      p.evaluateWith run arguments limit' = p.evaluateWith run arguments limit) ∧
    ∀ (c : Closure) (level : Nat) (site : Site) (arguments : List Value) (span : Span),
      Finished (c.apply (Expr.eval limit (limit - level)) site arguments span) →
      c.apply (Expr.eval limit' (limit' - level)) site arguments span =
        c.apply (Expr.eval limit (limit - level)) site arguments span := by
  have hkeeps : raising.Keeps (Expr.eval limit limit) (Expr.eval limit' limit') :=
    keeps_raising hle
  refine ⟨fun p run env => ?_, fun p run arguments => ?_,
    fun c level site arguments span => ?_⟩
  · exact eq_of_finished
      (keeps_evaluateIn hkeeps ⟨rfl, trivial⟩ rfl (raising_envs p.expression env))
  · refine eq_of_finished
      (keeps_evaluateWith hkeeps ⟨rfl, trivial⟩ rfl (raising_envs p.expression _) ?_)
    exact fun {c} _ => raising_parameterValues _ c.lambda.parameters
  · have harguments : List.Forall₂ raising.Values arguments arguments :=
      List.forall₂_same.2 fun v _ => raising_self v
    exact eq_of_finished (keeps_apply (keeps_raising (Nat.sub_le_sub_right hle level))
      ⟨rfl, fun c' _ => good_always c'⟩ rfl harguments fun _ => trivial)

/-- A fold gives its list, a number cannot be called, and no field of a number can be read, under a
limit of 3 and under the default. -/
theorem Program.outcome_of_limit_le_fold :
    ∃ p, parse "fold(0, (a, i, x) => [a, x], [7])" = .ok p ∧
      (Finished (p.evaluateIn ⟨0, 0⟩ [] 3) ∧
        p.evaluateIn ⟨0, 0⟩ [] defaultLimit = p.evaluateIn ⟨0, 0⟩ [] 3) ∧
      (Finished (p.evaluateWith ⟨0, 0⟩ [("fold", .int 1)] 3) ∧
        p.evaluateWith ⟨0, 0⟩ [("fold", .int 1)] defaultLimit =
          p.evaluateWith ⟨0, 0⟩ [("fold", .int 1)] 3) ∧
      ∃ c : Closure, Finished (c.apply (Expr.eval 3 (3 - 1)) [] [.int 1] .nowhere) ∧
        c.apply (Expr.eval defaultLimit (defaultLimit - 1)) [] [.int 1] .nowhere =
          c.apply (Expr.eval 3 (3 - 1)) [] [.int 1] .nowhere := by
  let function : Expr := .lambda [⟨"a", ⟨9, 10⟩⟩, ⟨"i", ⟨12, 13⟩⟩, ⟨"x", ⟨15, 16⟩⟩]
    (.list [.name ⟨"a", ⟨22, 23⟩⟩, .name ⟨"x", ⟨25, 26⟩⟩] ⟨21, 27⟩) ⟨8, 27⟩
  let p : Program := ⟨.apply (.name ⟨"fold", ⟨0, 4⟩⟩)
    [.int 0 ⟨5, 6⟩, function, .list [.int 7 ⟨30, 31⟩] ⟨29, 32⟩] ⟨0, 33⟩, []⟩
  let c : Closure :=
    ⟨⟨[.of "x"], .member (.name (.of "x")) (.of "k") .nowhere, .nowhere⟩, 0, []⟩
  have hparse : parse "fold(0, (a, i, x) => [a, x], [7])" = .ok p := by cbv
  have hin : p.evaluateIn ⟨0, 0⟩ [] 3 = .ok (.list [.int 0, .int 7]) := by cbv
  have hwith : p.evaluateWith ⟨0, 0⟩ [("fold", .int 1)] 3 =
      .error ⟨.notCallable .number, ⟨0, 4⟩⟩ := by cbv
  have happly : c.apply (Expr.eval 3 (3 - 1)) [] [.int 1] .nowhere =
      .error ⟨.noMethod "k" .number, .nowhere⟩ := by cbv
  have hfinished : Finished (p.evaluateIn ⟨0, 0⟩ [] 3) := hin ▸ finished_ok _
  have hfinished' : Finished (p.evaluateWith ⟨0, 0⟩ [("fold", .int 1)] 3) :=
    hwith ▸ finished_error fun _ => EvalFault.noConfusion
  have hfinished'' : Finished (c.apply (Expr.eval 3 (3 - 1)) [] [.int 1] .nowhere) :=
    happly ▸ finished_error fun _ => EvalFault.noConfusion
  obtain ⟨hevaluateIn, hevaluateWith, hclosure⟩ :=
    @outcome_of_limit_le 3 defaultLimit (by decide)
  exact ⟨p, hparse, ⟨hfinished, hevaluateIn p _ _ hfinished⟩,
    ⟨hfinished', hevaluateWith p _ _ hfinished'⟩, c, hfinished'',
    hclosure c 1 _ _ _ hfinished''⟩

end ConfigExpr
