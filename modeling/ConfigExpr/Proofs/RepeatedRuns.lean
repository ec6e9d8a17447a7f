import ConfigExpr.Proofs.FreeNames
import ConfigExpr.Proofs.Numbers

/-!
# Repeated runs

Two runs of a program with the same arguments bind the same names, each in frames of its own. So
both fail with the same error, or both have values that are shown alike, and these values are equal
unless a closure in them has captured a frame (`Program.repeated_runs`).
-/

namespace ConfigExpr

/-- Sites of two runs; the outermost step of a site is its run. -/
def Site.Apart (m n : Nat) (s t : Site) : Prop :=
  s.getLast? = some m ∧ t.getLast? = some n

theorem Site.Apart.cons {m n : Nat} {s t : Site} (h : Apart m n s t) (k : Nat) :
    Apart m n (k :: s) (k :: t) := by
  simp [Apart, List.getLast?_cons, h.1, h.2]

theorem Site.Apart.ne {m n : Nat} {s t : Site} (h : Apart m n s t) (hmn : m ≠ n) : s ≠ t := by
  rintro rfl
  exact hmn (Option.some.inj (h.1.symm.trans h.2))

/-- Environments with frames of two runs. -/
abbrev Env.Apart (m n : Nat) (a b : Env) : Prop :=
  List.Forall₂ (fun f g : Frame => Site.Apart m n f.site g.site) a b

/-- Two runs have made the closures of the same lambda, in frames of their own that bind the same
names to such closures and to equal data. -/
inductive Closure.Twins (m n : Nat) : Closure → Closure → Prop where
  | mk {c d : Closure} : c.lambda = d.lambda → c.program = d.program → Env.Apart m n c.env d.env →
    (∀ x, Option.Rel (Value.Related (Closure.Twins m n))
      (Env.lookup? c.env x) (Env.lookup? d.env x)) → Twins m n c d

structure Env.Twins (m n : Nat) (a b : Env) : Prop where
  apart : Env.Apart m n a b
  lookup : ∀ x, Option.Rel (Value.Related (Closure.Twins m n)) (a.lookup? x) (b.lookup? x)

variable {m n : Nat}

theorem Env.Twins.append {a b : Env} {frames frames' : List Frame} (h : Twins m n a b)
    (hframes : List.Forall₂ (Frame.Related (Site.Apart m n) (Closure.Twins m n)) frames frames') :
    Twins m n (frames ++ a) (frames' ++ b) :=
  ⟨List.rel_append (hframes.imp fun _ _ hfg => hfg.2.1) h.apart,
    fun x => related_append hframes fun _ => h.lookup x⟩

/-- Evaluations in two runs. -/
def Correspondence.twins (m n : Nat) : Correspondence where
  toPlaces := .still
  programs := Eq
  sites := Site.Apart m n
  frameSites := Site.Apart m n
  closures := Closure.Twins m n
  envs _ := Env.Twins m n
  excused _ := False
  allowed _ := True
  sites_cons h := h.cons _
  frameSites_cons h := h.cons _
  closures_iff := by
    intro c d
    rw [Lambda.mapSpans_still]
    constructor
    · rintro ⟨hlambda, hprogram, hapart, hlookup⟩
      exact ⟨hlambda.symm, hprogram, hapart, hlookup⟩
    · rintro ⟨hlambda, hprogram, hapart, hlookup⟩
      exact ⟨hlambda.symm, hprogram, hapart, hlookup⟩
  lookup h := h.lookup _
  allowed_unbound _ _ := trivial
  allowed_other _ _ _ _ := trivial
  callee h := ⟨builtin?_eq_of_rel (fun n _ => h.lookup n.text) _, fun _ => h⟩
  argument h _ _ := h
  part _ _ h _ _ hframes := h.append hframes

instance : (Correspondence.twins m n).Still := ⟨rfl⟩

theorem Correspondence.keeps_twins (limit depth : Nat) :
    (twins m n).Keeps (Expr.eval limit depth) (Expr.eval limit depth) :=
  keeps_eval (fun _ => trivial) (fun _ => rfl) depth

/-! ## Equality of results -/

/-- The closures in the value were made where no name was bound. -/
def Value.CapturesNothing (v : Value) : Prop :=
  ∀ c, v.Contains c → c.env = []

namespace Value

theorem capturesNothing_list {items : List Value} :
    (Value.list items).CapturesNothing ↔ ∀ v ∈ items, v.CapturesNothing := by
  constructor
  · exact fun h v hv c hc => h c (.item hv hc)
  · rintro h c ⟨⟩
    next hv hc => exact h _ hv c hc

theorem capturesNothing_map {fields : List Field} :
    (Value.map fields).CapturesNothing ↔ ∀ f ∈ fields, f.value.CapturesNothing := by
  constructor
  · exact fun h f hf c hc => h c (.field hf hc)
  · rintro h c ⟨⟩
    next hf hc => exact h _ hf c hc

theorem capturesNothing_closure {c : Closure} :
    (Value.closure c).CapturesNothing ↔ c.env = [] := by
  constructor
  · exact fun h => h c .closure
  · intro h d hd
    cases hd with
    | closure => exact h
    | captured hf =>
      rw [h] at hf
      cases hf

end Value

/-- Equality of results: the same error, or equal values. -/
def sameResult : Except EvalError Value → Except EvalError Value → Bool
  | .ok v, .ok w => v == w
  | .error e, .error f => e == f
  | _, _ => false

theorem Env.Apart.same_iff {a b : Env} (h : Env.Apart m n a b) (hmn : m ≠ n) :
    Env.same a b = true ↔ a = [] := by
  cases h with
  | nil => exact iff_of_true rfl rfl
  | cons hfg _ => simp [Env.same, hfg.ne hmn]

theorem Closure.Twins.same_iff {c d : Closure} (h : c.Twins m n d) (hmn : m ≠ n) :
    c.same d = true ↔ c.env = [] := by
  obtain ⟨hlambda, hprogram, hapart, -⟩ := h
  simp [Closure.same, hlambda, hprogram, hapart.same_iff hmn]

theorem Closure.Twins.render_eq {c d : Closure} (h : c.Twins m n d) : c.render = d.render := by
  obtain ⟨hlambda, -⟩ := h
  exact render_congr hlambda

variable {C : Closure → Closure → Prop}

mutual

/-- Related values are equal as far as related closures are. -/
theorem Value.Related.beq_iff (hC : ∀ c d, C c d → (c.same d = true ↔ c.env = [])) :
    ∀ {v w : Value}, v.Related C w → v.Everywhere Value.NotNan →
      (v.beq w = true ↔ v.CapturesNothing)
  | _, _, .int, _ | _, _, .string, _ | _, _, .bool, _ => iff_of_true (beq_self_eq_true _) nofun
  | _, _, .float, h => iff_of_true (Binary64.beq_self h.self) nofun
  | _, _, .list hitems, h =>
    (Value.Related.beqAll_iff hC hitems fun _ => h.part).trans Value.capturesNothing_list.symm
  | _, _, .map hfields, h =>
    (Field.Related.beqAll_iff hC hfields (List.forall_mem_map.1 fun _ => h.part)).trans
      Value.capturesNothing_map.symm
  | _, _, .closure h, _ => (hC _ _ h).trans Value.capturesNothing_closure.symm

theorem Value.Related.beqAll_iff (hC : ∀ c d, C c d → (c.same d = true ↔ c.env = [])) :
    ∀ {vs ws : List Value}, List.Forall₂ (Value.Related C) vs ws →
      (∀ v ∈ vs, v.Everywhere Value.NotNan) →
      (Value.beqAll vs ws = true ↔ ∀ v ∈ vs, v.CapturesNothing)
  | _, _, .nil, _ => iff_of_true rfl nofun
  | _, _, .cons hvw hs, h => by
    obtain ⟨hv, hvs⟩ := List.forall_mem_cons.1 h
    rw [Value.beqAll, Bool.and_eq_true, hvw.beq_iff hC hv, Value.Related.beqAll_iff hC hs hvs,
      List.forall_mem_cons]

theorem Field.Related.beqAll_iff (hC : ∀ c d, C c d → (c.same d = true ↔ c.env = [])) :
    ∀ {fs gs : List Field}, List.Forall₂ (Field.Related C) fs gs →
      (∀ f ∈ fs, f.value.Everywhere Value.NotNan) →
      (Field.beqAll fs gs = true ↔ ∀ f ∈ fs, f.value.CapturesNothing)
  | _, _, .nil, _ => iff_of_true rfl nofun
  | _, _, .cons (.mk hvw) hs, h => by
    obtain ⟨hv, hvs⟩ := List.forall_mem_cons.1 h
    rw [Field.beqAll, Field.beq, beq_self_eq_true, Bool.true_and, Bool.and_eq_true,
      hvw.beq_iff hC hv, Field.Related.beqAll_iff hC hs hvs, List.forall_mem_cons]

end

/-! ## Arguments -/

theorem Scope.apart_bindAll {s s' : Scope} {added added' : List (String × Value)} (k : Nat)
    (hsites : Site.Apart m n s.site s'.site) (henv : Env.Apart m n s.env s'.env)
    (hlength : added.length = added'.length) :
    Env.Apart m n (s.bindAll k added).env (s'.bindAll k added').env := by
  induction added generalizing s s' added' k with
  | nil =>
    obtain rfl := List.length_eq_zero_iff.1 hlength.symm
    exact henv
  | cons b added ih =>
    cases added' with
    | nil => cases hlength
    | cons b' added' => exact ih (k + 1) hsites (.cons (hsites.cons k) henv) (Nat.succ.inj hlength)

namespace Program

variable {arguments arguments' : List (String × Value)}

theorem closureFree_of_mem_argumentEnv {run : Run} (hfree : ∀ a ∈ arguments, a.2.ClosureFree) :
    ∀ f ∈ argumentEnv run arguments, f.value.ClosureFree :=
  fun f hf => hfree (f.name, f.value) (mem_of_mem_argumentEnv hf)

theorem twins_argumentEnv (run run' : Run) (harguments : arguments.Perm arguments')
    (hnames : (arguments.map (·.1)).Nodup) (hfree : ∀ a ∈ arguments, a.2.ClosureFree) :
    Env.Twins run.number run'.number (argumentEnv run arguments) (argumentEnv run' arguments') := by
  refine ⟨Scope.apart_bindAll 0 ⟨rfl, rfl⟩ .nil harguments.length_eq, fun x => ?_⟩
  rw [← lookup?_argumentEnv_perm harguments hnames x]
  cases hx : (argumentEnv run arguments).lookup? x with
  | none => exact .none
  | some v =>
    obtain ⟨f, hf, rfl⟩ := Env.exists_of_lookup? hx
    exact .some (.self fun c hc => absurd hc (closureFree_of_mem_argumentEnv hfree f hf c))

theorem twins_evaluateWith (p : Program) {run run' : Run} (hprogram : run.program = run'.program)
    (harguments : arguments.Perm arguments') (hnames : (arguments.map (·.1)).Nodup)
    (hfree : ∀ a ∈ arguments, a.2.ClosureFree) (limit : Nat) :
    (Correspondence.twins run.number run'.number).Outcomes
      (Correspondence.twins run.number run'.number).Values
      (p.evaluateWith run arguments limit) (p.evaluateWith run' arguments' limit) := by
  have hsites : Site.Apart run.number run'.number [run.number] [run'.number] := ⟨rfl, rfl⟩
  refine Correspondence.keeps_evaluateWith (Correspondence.keeps_twins limit limit) hprogram hsites
    (twins_argumentEnv run run' harguments hnames hfree) fun {c} _ => ?_
  rw [← parameterValues_congr (lookup?_argumentEnv_perm harguments hnames)]
  cases hvalues : parameterValues (argumentEnv run arguments) c.lambda.parameters with
  | error e => exact .error trivial
  | ok values =>
    refine .ok (Value.Related.selfAll fun v hv d hd => ?_)
    obtain ⟨f, hf, rfl⟩ := exists_of_mem_parameterValues hvalues v hv
    exact absurd hd (closureFree_of_mem_argumentEnv hfree f hf d)

/-- Two runs of a parsed program, with the same arguments in any order and neither closures nor "not
a number" among them, fail with the same error or have values that are shown alike. Their results
are equal if and only if they are errors or no closure in the value has captured anything. -/
theorem repeated_runs {source : String} {p : Program} (hp : parse source = .ok p) (run run' : Run)
    (hprogram : run.program = run'.program) (hruns : run.number ≠ run'.number)
    (harguments : arguments.Perm arguments') (hnames : (arguments.map (·.1)).Nodup)
    (hfree : ∀ a ∈ arguments, a.2.ClosureFree)
    (hnumbers : ∀ a ∈ arguments, a.2.Everywhere Value.NotNan) (limit : Nat) :
    let first := p.evaluateWith run arguments limit
    let second := p.evaluateWith run' arguments' limit
    ((∃ e, first = .error e ∧ second = .error e) ∨
      ∃ v w, first = .ok v ∧ second = .ok w ∧ toString v = toString w) ∧
    (sameResult first second = true ↔
      (∃ e, first = .error e) ∨ ∃ v, first = .ok v ∧ v.CapturesNothing) := by
  intro first second
  have houtcomes : (Correspondence.twins run.number run'.number).Outcomes
      (Correspondence.twins run.number run'.number).Values first second :=
    twins_evaluateWith p hprogram harguments hnames hfree limit
  have hnan : ∀ v, first = .ok v → v.Everywhere Value.NotNan := fun v =>
    notNan_of_evaluateWith hp hfree hnumbers
  clear_value first second
  cases houtcomes with
  | @ok v w hvw =>
    have htext := hvw.toString_eq fun _ _ h => h.render_eq
    have hequal := hvw.beq_iff (fun _ _ h => h.same_iff hruns) (hnan v rfl)
    refine ⟨.inr ⟨v, w, rfl, rfl, htext⟩, hequal.trans ⟨fun h => .inr ⟨v, rfl, h⟩, ?_⟩⟩
    rintro (⟨e, he⟩ | ⟨_, ⟨⟩, h⟩)
    · cases he
    · exact h
  | @error e => exact ⟨.inl ⟨e, rfl, rfl⟩, iff_of_true (beq_self_eq_true e) (.inl ⟨e, rfl⟩)⟩
  | excused he => exact he.elim

/-- A function made where no name is bound is the same in both runs. Made where the arguments are
bound, it is not. -/
theorem repeated_runs_list :
    let arguments : List (String × Value) := [("x", .int 1), ("y", .float (.infinite false))]
    (∀ a ∈ arguments, a.2.ClosureFree) ∧ (∀ a ∈ arguments, a.2.Everywhere Value.NotNan) ∧
      ∃ p, parse "[() => 1]" = .ok p ∧
        sameResult (p.evaluateWith ⟨0, 0⟩ [] 9) (p.evaluateWith ⟨0, 1⟩ [] 9) = true ∧
        sameResult (p.evaluateWith ⟨0, 0⟩ arguments 9)
          (p.evaluateWith ⟨0, 1⟩ arguments.reverse 9) = false := by
  intro arguments
  let lambda : Lambda := ⟨[], .int 1 ⟨7, 8⟩, ⟨1, 8⟩⟩
  let p : Program := ⟨.list [lambda.toExpr] ⟨0, 9⟩, []⟩
  have hparse : parse "[() => 1]" = .ok p := by cbv
  have hempty : p.evaluateWith ⟨0, 0⟩ [] 9 = .ok (.list [.closure ⟨lambda, 0, []⟩]) := by cbv
  have hvalue : p.evaluateWith ⟨0, 0⟩ arguments 9 =
      .ok (.list [.closure ⟨lambda, 0, argumentEnv ⟨0, 0⟩ arguments⟩]) := by cbv
  have hfree : ∀ a ∈ arguments, a.2.ClosureFree := by
    refine List.forall_mem_cons.2 ⟨?_, List.forall_mem_singleton.2 ?_⟩ <;> rintro c ⟨⟩
  have hnumbers : ∀ a ∈ arguments, a.2.Everywhere Value.NotNan := by
    refine List.forall_mem_cons.2 ⟨.intro trivial (List.forall_mem_nil _), ?_⟩
    exact List.forall_mem_singleton.2 (.intro Binary64.noConfusion (List.forall_mem_nil _))
  obtain ⟨-, hequal⟩ := repeated_runs hparse ⟨0, 0⟩ ⟨0, 1⟩ rfl (by decide) (.refl []) .nil
    (List.forall_mem_nil _) (List.forall_mem_nil _) 9
  obtain ⟨-, hdiffer⟩ := repeated_runs hparse ⟨0, 0⟩ ⟨0, 1⟩ rfl (by decide)
    arguments.reverse_perm.symm (by decide) hfree hnumbers 9
  refine ⟨hfree, hnumbers, p, hparse, hequal.2 (.inr ⟨_, hempty, ?_⟩),
    Bool.eq_false_iff.2 fun h => ?_⟩
  · exact Value.capturesNothing_list.2
      (List.forall_mem_singleton.2 (Value.capturesNothing_closure.2 rfl))
  · rcases hdiffer.1 h with ⟨e, he⟩ | ⟨v, hv, hnothing⟩
    · cases hvalue.symm.trans he
    · cases hvalue.symm.trans hv
      cases hnothing _ (.item List.mem_cons_self .closure)

end Program

end ConfigExpr
