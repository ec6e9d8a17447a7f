import ConfigExpr.Proofs.Arguments
import ConfigExpr.Proofs.Correspondence

/-!
# Properties of expressions in their scope

A property of expressions under the names bound around them that passes to their parts is one that
evaluation keeps: if it holds where a program is evaluated, each closure that comes up has it too
where it was made. The correspondence behind this relates an evaluation to itself.
-/

namespace ConfigExpr

structure ScopeProperty where
  /-- The names are those bound around the expression, innermost first. -/
  holds : List String → Expr → Prop
  part : ∀ {names inner e x}, holds names e → (∀ f arguments s, e ≠ .apply f arguments s) →
    e.Part inner x → holds (inner ++ names) x
  argument : ∀ {names f arguments s}, holds names (.apply f arguments s) →
    ∀ x ∈ arguments, holds names x
  /-- A callee may be without the property if it stands for a built-in function. -/
  callee : ∀ {names f arguments s}, holds names (.apply f arguments s) →
    (∀ n, f = .name n → n.text ∉ names → Builtin.ofName? n.text = none) → holds names f

namespace ScopeProperty

variable (P : ScopeProperty) (program : Nat → Prop)

/-- A closure of one of the programs that has the property where it was made. -/
def Good (c : Closure) : Prop :=
  program c.program ∧ P.holds (Env.names c.env) c.lambda.toExpr

/-- All closures in an environment are good. -/
def GoodEnv (env : Env) : Prop :=
  ∀ f ∈ env, ∀ c, f.value.Contains c → P.Good program c

/-- Two closures are one closure, in which all are good. -/
def SameGood (c d : Closure) : Prop :=
  c = d ∧ ∀ c', (Value.closure c).Contains c' → P.Good program c'

variable {P program}

theorem related_self {v : Value} (h : ∀ c, v.Contains c → P.Good program c) :
    v.Related (P.SameGood program) v :=
  .self fun _ hc => ⟨rfl, fun c' hc' => h c' (hc.trans hc')⟩

theorem eq_of_related {v w : Value} (h : v.Related (P.SameGood program) w) :
    v = w ∧ ∀ c, v.Contains c → P.Good program c := by
  refine ⟨h.eq fun c d _ hcd => hcd.1, fun c hc => ?_⟩
  obtain ⟨d, d', hd, hcontains⟩ := h.exists_of_contains hc
  exact hd.2 c hcontains

theorem eq_of_frames {frames frames' : List Frame}
    (h : List.Forall₂ (Frame.Related Eq (P.SameGood program)) frames frames') :
    frames = frames' ∧ P.GoodEnv program frames := by
  induction h with
  | nil => exact ⟨rfl, nofun⟩
  | @cons f g fs gs hfg _ ih =>
    obtain ⟨hname, hsite, hvalue⟩ := hfg
    obtain ⟨heq, hgood⟩ := eq_of_related hvalue
    refine ⟨?_, fun x hx => ?_⟩
    · cases f
      cases g
      cases hname
      cases hsite
      cases heq
      rw [ih.1]
    · rcases List.mem_cons.1 hx with rfl | hx
      · exact hgood
      · exact ih.2 x hx

/-- The errors that can show at an expression with the property are allowed. -/
structure Permits (P : ScopeProperty) (allowed : EvalError → Prop) : Prop where
  unbound : ∀ {names n}, P.holds names (.name n) → n.text ∉ names →
    allowed ⟨.unbound n.text, n.span⟩
  other : ∀ {names e fault}, P.holds names e → (∀ name, fault ≠ .unbound name) →
    ∀ s ∈ e.span :: e.places, allowed ⟨fault, s⟩

theorem permits_all : P.Permits fun _ => True :=
  ⟨fun _ _ => trivial, fun _ _ _ _ => trivial⟩

/-- An evaluation beside itself, in an environment where the property holds and all closures are
good. -/
def correspondence (program : Nat → Prop) (excused : EvalError → Prop)
    {allowed : EvalError → Prop} (hallowed : P.Permits allowed) : Correspondence where
  toPlaces := .still
  programs m n := m = n ∧ program m
  sites := Eq
  frameSites := Eq
  closures := P.SameGood program
  envs e a b := a = b ∧ P.holds a.names e ∧ P.GoodEnv program a
  excused := excused
  allowed := allowed
  sites_cons h := congrArg (_ :: ·) h
  frameSites_cons h := congrArg (_ :: ·) h
  closures_iff {c d} := by
    rw [Lambda.mapSpans_still]
    constructor
    · rintro ⟨rfl, hgood⟩
      obtain ⟨hprogram, hholds⟩ := hgood c .closure
      exact ⟨rfl, ⟨rfl, hprogram⟩, rfl, hholds, fun f hf c' hc' => hgood c' (.captured hf hc')⟩
    · cases c
      cases d
      rintro ⟨hlambda, ⟨hprograms, hprogram⟩, henv, hholds, hgood⟩
      cases hlambda
      cases hprograms
      cases henv
      refine ⟨rfl, fun c' hc' => ?_⟩
      cases hc' with
      | closure => exact ⟨hprogram, hholds⟩
      | captured hf hc' => exact hgood _ hf _ hc'
  lookup {n a b} := by
    rintro ⟨rfl, -, hgood⟩
    cases hv : a.lookup? n.text with
    | none => exact .none
    | some v =>
      obtain ⟨f, hf, rfl⟩ := Env.exists_of_lookup? hv
      exact .some (related_self (hgood f hf))
  allowed_unbound {n a b} := by
    rintro ⟨rfl, hholds, -⟩ hnone
    exact hallowed.unbound hholds (Env.lookup?_eq_none_iff.1 hnone)
  allowed_other {e a b fault} := by
    rintro ⟨rfl, hholds, -⟩ hfault
    exact hallowed.other hholds (fault.ne_unbound_of_ofValues hfault)
  callee {f arguments s a b} := by
    rintro ⟨rfl, hholds, hgood⟩
    rw [Expr.mapSpans_still]
    refine ⟨rfl, fun hnone => ⟨rfl, P.callee hholds fun n hn hname => ?_, hgood⟩⟩
    cases hb : Builtin.ofName? n.text with
    | none => rfl
    | some b =>
      have hsome := builtin?_eq_some_iff.2 ⟨n, hn, Env.lookup?_eq_none_iff.2 hname, hb⟩
      cases hnone.symm.trans hsome
  argument := by
    rintro f arguments s a b ⟨rfl, hholds, hgood⟩ x hx
    exact ⟨rfl, P.argument hholds x hx, hgood⟩
  part := by
    rintro e x a b frames frames' ⟨rfl, hholds, hgood⟩ hne hpart hframes
    obtain ⟨rfl, hgood'⟩ := eq_of_frames hframes
    have hnames : Env.names (frames ++ a) = frames.map (·.name) ++ a.names := List.map_append
    refine ⟨rfl, hnames ▸ P.part hholds hne hpart, fun f hf => ?_⟩
    rcases List.mem_append.1 hf with hf | hf
    · exact hgood' f hf
    · exact hgood f hf

theorem goodEnv_of_closureFree {env : Env} (hfree : ∀ f ∈ env, f.value.ClosureFree) :
    P.GoodEnv program env :=
  fun f hf c hc => absurd hc (hfree f hf c)

/-- An outcome is a value with good closures only, or an allowed error. -/
def Settled (P : ScopeProperty) (program : Nat → Prop) (allowed : EvalError → Prop) :
    Except EvalError Value → Prop
  | .ok v => ∀ c, v.Contains c → P.Good program c
  | .error e => allowed e

section

open Correspondence

variable {p : Program} {run : Run} {limit : Nat} {allowed : EvalError → Prop}
  (hallowed : P.Permits allowed)

/-- An evaluation beside itself in which each error is allowed. -/
def tracking (program : Nat → Prop) : Correspondence :=
  P.correspondence program (fun _ => False) hallowed

instance : (tracking hallowed program).Still := ⟨rfl⟩

theorem keeps_tracking (limit depth : Nat) :
    (tracking hallowed program).Keeps (Expr.eval limit depth) (Expr.eval limit depth) := by
  refine keeps_eval (fun {e a b} henvs => ?_) (fun _ => rfl) depth
  obtain ⟨-, hholds, -⟩ := henvs
  exact hallowed.other hholds (fun _ => EvalFault.noConfusion) e.span List.mem_cons_self

theorem settled_of_outcomes {x y : Except EvalError Value}
    (h : (tracking hallowed program).Outcomes (tracking hallowed program).Values x y) :
    P.Settled program allowed x := by
  cases h with
  | ok hvw => exact (eq_of_related hvw).2
  | error he => exact he
  | excused he => exact he.elim

variable (hprogram : program run.program)

include hallowed hprogram

theorem settled_evaluateIn {env : Env} (henv : P.GoodEnv program env)
    (hholds : P.holds env.names p.expression) :
    P.Settled program allowed (p.evaluateIn run env limit) :=
  settled_of_outcomes hallowed (keeps_evaluateIn (keeps_tracking hallowed limit limit)
    ⟨rfl, hprogram⟩ rfl ⟨rfl, hholds, henv⟩)

theorem settled_evaluateWith {arguments : List (String × Value)}
    (hfree : ∀ a ∈ arguments, a.2.ClosureFree)
    (hholds : P.holds (Program.argumentEnv run arguments).names p.expression)
    (hparameters : ∀ {c e}, p.evaluateIn run (Program.argumentEnv run arguments) limit =
      .ok (.closure c) → Program.parameterValues (Program.argumentEnv run arguments)
        c.lambda.parameters = .error e → allowed e) :
    P.Settled program allowed (p.evaluateWith run arguments limit) := by
  have hframes : ∀ f ∈ Program.argumentEnv run arguments, f.value.ClosureFree :=
    fun f hf => hfree _ (Program.mem_of_mem_argumentEnv hf)
  refine settled_of_outcomes hallowed (keeps_evaluateWith (keeps_tracking hallowed limit limit)
    ⟨rfl, hprogram⟩ rfl ⟨rfl, hholds, goodEnv_of_closureFree hframes⟩ ?_)
  -- What the parameters are bound to comes from the arguments, so no closure is in it.
  intro c hc
  cases hx : Program.parameterValues (Program.argumentEnv run arguments) c.lambda.parameters with
  | error e => exact .error (hparameters hc hx)
  | ok values =>
    refine .ok (List.forall₂_same.2 fun v hv => related_self fun c hc => ?_)
    obtain ⟨f, hf, rfl⟩ := Program.exists_of_mem_parameterValues hx v hv
    exact absurd hc (hframes f hf c)

end

end ScopeProperty

end ConfigExpr
