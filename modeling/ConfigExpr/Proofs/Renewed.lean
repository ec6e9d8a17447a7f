import ConfigExpr.Proofs.FreeNames

/-!
# Renewed frames

Evaluations that do the same in another nesting make the same frames at other sites. Their values
are the same up to the identity of these frames (`Value.RenewedIn`): those from before stay what
they are, and the new ones stand for one another, one to one. The correspondence behind this
compares an evaluation with one that may nest more deeply and stands at another site
(`Correspondence.renewing`).
-/

namespace ConfigExpr

namespace Site

/-- The site of a frame that an evaluation at the first site makes, itself or in its parts. -/
def Inside (site s : Site) : Prop :=
  site <:+ s ∧ site.length < s.length

/-- The sites at one path from two sites that `R` relates. -/
def Under (R : Site → Site → Prop) (a b : Site) : Prop :=
  ∃ path s t, R s t ∧ a = path ++ s ∧ b = path ++ t

/-- No site on the left of `R` leads to another. -/
def Separate (R : Site → Site → Prop) : Prop :=
  ∀ {s t s' t'}, R s t → R s' t' → s <:+ s' → s = s' ∧ t = t'

variable {site : Site} {R : Site → Site → Prop}

theorem inside_cons {s : Site} (h : site <:+ s) (k : Nat) : site.Inside (k :: s) :=
  ⟨h.trans (List.suffix_cons k s), Nat.lt_succ_of_le h.length_le⟩

theorem Inside.under {s : Site} (h : site.Inside s) (path : Site) : site.Inside (path ++ s) := by
  have hs : s <:+ path ++ s := List.suffix_append path s
  exact ⟨h.1.trans hs, Nat.lt_of_lt_of_le h.2 hs.length_le⟩

theorem Under.self {s t : Site} (h : R s t) : Under R s t :=
  ⟨[], s, t, h, rfl, rfl⟩

theorem Under.cons {a b : Site} (h : Under R a b) (k : Nat) : Under R (k :: a) (k :: b) := by
  obtain ⟨path, s, t, hst, rfl, rfl⟩ := h
  exact ⟨k :: path, s, t, hst, rfl, rfl⟩

theorem Under.flip {a b : Site} (h : Under R a b) : Under (fun s t => R t s) b a := by
  obtain ⟨path, s, t, hst, ha, hb⟩ := h
  exact ⟨path, t, s, hst, hb, ha⟩

/-- Where no site leads to another, a path tells from which it comes. -/
theorem rightUnique_under (h : Separate R) : Relator.RightUnique (Under R) := by
  rintro _ b b' ⟨path, s, t, hst, rfl, rfl⟩ ⟨path', s', t', hst', hpath, rfl⟩
  have hs : s <:+ path ++ s := List.suffix_append path s
  have hs' : s' <:+ path ++ s := hpath ▸ List.suffix_append path' s'
  have heq : s = s' ∧ t = t' := by
    rcases List.suffix_or_suffix_of_suffix hs hs' with hle | hle
    · exact h hst hst' hle
    · obtain ⟨rfl, rfl⟩ := h hst' hst hle
      exact ⟨rfl, rfl⟩
  obtain ⟨rfl, rfl⟩ := heq
  rw [List.append_cancel_right hpath]

theorem leftUnique_under (h : Separate fun s t => R t s) : Relator.LeftUnique (Under R) :=
  fun _ _ _ hac hbc => rightUnique_under h hac.flip hbc.flip

/-- The frames made inside a site stand for one another, one to one. -/
structure Renewal (site : Site) (F : Site → Site → Prop) : Prop where
  inside : ∀ {a b}, F a b → site.Inside a ∧ site.Inside b
  unique : Relator.BiUnique F

theorem renewal_under (h : Separate R) (h' : Separate fun s t => R t s)
    (hinside : ∀ {s t}, R s t → site.Inside s ∧ site.Inside t) : site.Renewal (Under R) where
  inside := by
    rintro _ _ ⟨path, s, t, hst, rfl, rfl⟩
    exact ⟨(hinside hst).1.under path, (hinside hst).2.under path⟩
  unique := ⟨leftUnique_under h', rightUnique_under h⟩

end Site

/-! ## Values -/

mutual

/-- Closures of one lambda, in environments that are the same but for renewed frames. -/
inductive Closure.Renewed (F : Site → Site → Prop) : Closure → Closure → Prop where
  | mk {c d : Closure} : c.lambda = d.lambda → c.program = d.program →
    List.Forall₂ (Frame.Renewed F) c.env d.env → Closure.Renewed F c d

inductive Frame.Renewed (F : Site → Site → Prop) : Frame → Frame → Prop where
  | same {f : Frame} : Frame.Renewed F f f
  | renewed {f g : Frame} : f.name = g.name → F f.site g.site →
    f.value.Related (Closure.Renewed F) g.value → Frame.Renewed F f g

end

abbrev Env.Renewed (F : Site → Site → Prop) (a b : Env) : Prop :=
  List.Forall₂ (Frame.Renewed F) a b

/-- The same value up to the identity of frames made inside the site. -/
def Value.RenewedIn (site : Site) (v w : Value) : Prop :=
  ∃ F, site.Renewal F ∧ v.Related (Closure.Renewed F) w

/-- The same error, or the same value up to the identity of frames made inside the site. -/
inductive SameOutcome (site : Site) : Except EvalError Value → Except EvalError Value → Prop where
  | error {e : EvalError} : SameOutcome site (.error e) (.error e)
  | ok {v w : Value} : v.RenewedIn site w → SameOutcome site (.ok v) (.ok w)

section

variable {F : Site → Site → Prop}

theorem Env.renewed_self (env : Env) : Env.Renewed F env env :=
  List.forall₂_same.2 fun _ _ => .same

theorem Value.renewed_self (v : Value) : v.Related (Closure.Renewed F) v :=
  .self fun c _ => .mk rfl rfl (Env.renewed_self c.env)

theorem Frame.Renewed.name_eq {f g : Frame} (h : f.Renewed F g) : f.name = g.name := by
  cases h with
  | same => rfl
  | renewed hname => exact hname

theorem Frame.Renewed.value {f g : Frame} (h : f.Renewed F g) :
    f.value.Related (Closure.Renewed F) g.value := by
  cases h with
  | same => exact Value.renewed_self f.value
  | renewed _ _ hvalue => exact hvalue

theorem Env.Renewed.lookup? {a b : Env} (h : a.Renewed F b) (name : String) :
    Option.Rel (Value.Related (Closure.Renewed F)) (a.lookup? name) (b.lookup? name) := by
  induction h with
  | nil => exact .none
  | cons hfg _ ih =>
    rw [Env.lookup?_cons, Env.lookup?_cons, ← hfg.name_eq]
    split
    · exact .some hfg.value
    · exact ih

/-- The identity of frames is not shown, and no data depends on it. -/
theorem SameOutcome.shownAlike {site : Site} {x y : Except EvalError Value}
    (h : SameOutcome site x y) : ShownAlike x y := by
  cases h with
  | error => exact .error
  | ok h =>
    obtain ⟨F, -, hvw⟩ := h
    refine .ok (hvw.toString_eq fun c d hcd => ?_) fun hfree => ?_
    · obtain ⟨hlambda, -⟩ := hcd
      exact Closure.render_congr hlambda
    · exact hvw.eq fun c _ hc _ => absurd hc (hfree c)

end

/-! ## Evaluations -/

namespace Correspondence

section

variable {R F : Site → Site → Prop}
  (hF : ∀ {k a b}, Site.Under R a b → F (k :: a) (k :: b))

/-- Evaluations at sites under `R`, whose frames `F` relates. What nests too deeply on the left says
nothing about the right. -/
def renewing : Correspondence where
  toPlaces := .still
  programs := Eq
  sites := Site.Under R
  frameSites := F
  closures := Closure.Renewed F
  envs _ := Env.Renewed F
  excused e := ∃ limit, e.fault = .tooDeep limit
  allowed _ := True
  sites_cons h := h.cons _
  frameSites_cons h := hF h
  closures_iff := by
    intro c d
    rw [Lambda.mapSpans_still]
    constructor
    · rintro ⟨hlambda, hprogram, henv⟩
      exact ⟨hlambda.symm, hprogram, henv⟩
    · rintro ⟨hlambda, hprogram, henv⟩
      exact ⟨hlambda.symm, hprogram, henv⟩
  lookup h := h.lookup? _
  allowed_unbound _ _ := trivial
  allowed_other _ _ _ _ := trivial
  callee h := ⟨builtin?_eq_of_rel (fun n _ => h.lookup? n.text) _, fun _ => h⟩
  argument h _ _ := h
  part _ _ h _ _ hframes :=
    List.rel_append (hframes.imp fun _ _ hfg => .renewed hfg.1 hfg.2.1 hfg.2.2) h

theorem keeps_renewing {limit limit' depth depth' : Nat} (hle : depth ≤ depth') :
    (renewing hF).Keeps (Expr.eval limit depth) (Expr.eval limit' depth') :=
  keeps_eval_of_le (r := renewing hF) (fun _ => ⟨limit, rfl⟩) hle

theorem renewing_eval {limit limit' depth depth' : Nat} (hle : depth ≤ depth') {s s' : Scope}
    (hprogram : s.program = s'.program) (hsites : Site.Under R s.site s'.site)
    (henvs : Env.Renewed F s.env s'.env) (e : Expr) :
    (renewing hF).Outcomes (renewing hF).Values (Expr.eval limit depth s e)
      (Expr.eval limit' depth' s' e) := by
  have h : (renewing hF).Outcomes (renewing hF).Values (Expr.eval limit depth s e)
      (Expr.eval limit' depth' s' (e.mapSpans (renewing hF).place)) :=
    keeps_renewing hF hle ⟨hprogram, hsites, henvs⟩
  rwa [show e.mapSpans (renewing hF).place = e from e.mapSpans_id] at h

end

end Correspondence

end ConfigExpr
