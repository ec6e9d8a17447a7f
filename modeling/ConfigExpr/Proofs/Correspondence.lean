import ConfigExpr.Program.Run
import ConfigExpr.Proofs.Distinct
import ConfigExpr.Proofs.Related
import ConfigExpr.Value.Render

/-!
# Corresponding evaluations

Two evaluations side by side, in two scopes, of an expression and of the expression with its places
moved. A `Correspondence` says when two environments fit together for an expression and when two
closures do, with the conditions under which this passes from an expression to its parts. Then the
evaluations fit together too: if two evaluators keep a correspondence, so do the steps made from
them (`Correspondence.keeps_step`).

An error on the left has to be allowed and to be met by the same error at the place moved on the
right, unless it excuses the right side from giving anything in particular. Where places stay as
they are (`Correspondence.Still`), the two sides evaluate one expression.
-/

namespace ConfigExpr

theorem Name.map_mapSpan_id (names : List Name) : names.map (·.mapSpan fun s => s) = names :=
  List.map_id names

mutual

theorem Expr.mapSpans_id : ∀ e : Expr, e.mapSpans (fun s => s) = e
  | .template segments _ => by rw [Expr.mapSpans, Segment.mapSpansAll_id segments]
  | .letIn bindings body _ => by
    rw [Expr.mapSpans, Binding.mapSpansAll_id bindings, Expr.mapSpans_id body]
  | .lambda parameters body _ => by
    rw [Expr.mapSpans, Name.map_mapSpan_id parameters, Expr.mapSpans_id body]
  | .apply callee arguments _ => by
    rw [Expr.mapSpans, Expr.mapSpans_id callee, Expr.mapSpansAll_id arguments]
  | .map entries _ => by rw [Expr.mapSpans, Entry.mapSpansAll_id entries]
  | .list items _ => by rw [Expr.mapSpans, Expr.mapSpansAll_id items]
  | .member receiver _ _ => by
    rw [Expr.mapSpans, Expr.mapSpans_id receiver]
    rfl
  | .method receiver _ arguments _ => by
    rw [Expr.mapSpans, Expr.mapSpans_id receiver, Expr.mapSpansAll_id arguments]
    rfl
  | .index receiver key _ => by rw [Expr.mapSpans, Expr.mapSpans_id receiver, Expr.mapSpans_id key]
  | .int .. | .float .. | .bool .. | .name .. => rfl

theorem Expr.mapSpansAll_id : ∀ es : List Expr, Expr.mapSpansAll (fun s => s) es = es
  | [] => rfl
  | e :: es => by rw [Expr.mapSpansAll, Expr.mapSpans_id e, Expr.mapSpansAll_id es]

theorem Segment.mapSpans_id : ∀ s : Segment, s.mapSpans (fun s => s) = s
  | .text _ => rfl
  | .code e => by rw [Segment.mapSpans, Expr.mapSpans_id e]

theorem Segment.mapSpansAll_id : ∀ ss : List Segment, Segment.mapSpansAll (fun s => s) ss = ss
  | [] => rfl
  | s :: ss => by rw [Segment.mapSpansAll, Segment.mapSpans_id s, Segment.mapSpansAll_id ss]

theorem Binding.mapSpansAll_id : ∀ bs : List Binding, Binding.mapSpansAll (fun s => s) bs = bs
  | [] => rfl
  | ⟨_, e⟩ :: bs => by
    rw [Binding.mapSpansAll, Binding.mapSpans, Expr.mapSpans_id e, Binding.mapSpansAll_id bs]
    rfl

theorem Entry.mapSpansAll_id : ∀ es : List Entry, Entry.mapSpansAll (fun s => s) es = es
  | [] => rfl
  | ⟨_, e⟩ :: es => by
    rw [Entry.mapSpansAll, Entry.mapSpans, Expr.mapSpans_id e, Entry.mapSpansAll_id es]
    rfl

end

def Frame.Related (sites : Site → Site → Prop) (C : Closure → Closure → Prop) (f g : Frame) :
    Prop :=
  f.name = g.name ∧ sites f.site g.site ∧ f.value.Related C g.value

def Lambda.mapSpans (f : Span → Span) (l : Lambda) : Lambda :=
  ⟨l.parameters.map (·.mapSpan f), l.body.mapSpans f, f l.span⟩

/-- Whether a callee stands for a built-in function depends only on whether it is bound. -/
theorem builtin?_eq_of_rel {R : Value → Value → Prop} {a b : Env} {callee : Expr}
    (h : ∀ n, callee = .name n → Option.Rel R (a.lookup? n.text) (b.lookup? n.text))
    (place : Span → Span) : builtin? a callee = builtin? b (callee.mapSpans place) := by
  cases callee with
  | name n =>
    have hn := h n rfl
    simp only [Expr.mapSpans, builtin?, Name.mapSpan]
    generalize a.lookup? n.text = v, b.lookup? n.text = w at hn
    cases hn <;> rfl
  | _ => rfl

structure Places where
  /-- Where the places of the left side are on the right. -/
  place : Span → Span
  /-- What an error of the left side is on the right. -/
  moved : EvalError → EvalError
  moved_eq : ∀ {fault s}, fault.isTooDeep = false → moved ⟨fault, s⟩ = ⟨fault, place s⟩

/-- Places and errors are the same on both sides. -/
def Places.still : Places :=
  ⟨fun s => s, fun e => e, fun _ => rfl⟩

theorem Expr.mapSpans_still (e : Expr) : e.mapSpans Places.still.place = e :=
  e.mapSpans_id

theorem Lambda.mapSpans_still (l : Lambda) : l.mapSpans Places.still.place = l := by
  rw [mapSpans, Expr.mapSpans_still]
  exact congrArg (Lambda.mk · l.body l.span) (Name.map_mapSpan_id l.parameters)

structure Correspondence extends Places where
  programs : Nat → Nat → Prop
  /-- The sites of evaluations on the two sides. -/
  sites : Site → Site → Prop
  /-- The sites of the frames that these make. -/
  frameSites : Site → Site → Prop
  closures : Closure → Closure → Prop
  /-- The environments in which an expression may be evaluated on the two sides. -/
  envs : Expr → Env → Env → Prop
  excused : EvalError → Prop
  allowed : EvalError → Prop
  sites_cons : ∀ {k a b}, sites a b → sites (k :: a) (k :: b)
  frameSites_cons : ∀ {k a b}, sites a b → frameSites (k :: a) (k :: b)
  closures_iff : ∀ {c d : Closure}, closures c d ↔
    d.lambda = c.lambda.mapSpans place ∧ programs c.program d.program ∧
      envs c.lambda.toExpr c.env d.env
  lookup : ∀ {n : Name} {a b}, envs (.name n) a b →
    Option.Rel (Value.Related closures) (a.lookup? n.text) (b.lookup? n.text)
  allowed_unbound : ∀ {n : Name} {a b}, envs (.name n) a b → a.lookup? n.text = none →
    allowed ⟨.unbound n.text, n.span⟩
  /-- A fault of values shows at the place of the expression or of something directly in it. -/
  allowed_other : ∀ {e a b fault}, envs e a b → fault.ofValues = true →
    ∀ s ∈ e.span :: e.places, allowed ⟨fault, s⟩
  /-- A callee that stands for a built-in function is not evaluated. -/
  callee : ∀ {f arguments s a b}, envs (.apply f arguments s) a b →
    builtin? a f = builtin? b (f.mapSpans place) ∧ (builtin? a f = none → envs f a b)
  argument : ∀ {f arguments s a b}, envs (.apply f arguments s) a b → ∀ x ∈ arguments, envs x a b
  /-- The frames are those that bind the names around the part. -/
  part : ∀ {e x a b} (frames frames' : List Frame), envs e a b →
    (∀ f arguments s, e ≠ .apply f arguments s) → e.Part (frames.map (·.name)) x →
    List.Forall₂ (Frame.Related frameSites closures) frames frames' →
    envs x (frames ++ a) (frames' ++ b)

namespace Correspondence

section

variable (r : Correspondence)

abbrev Values (v w : Value) : Prop := v.Related r.closures w

abbrev Frames (f g : Frame) : Prop := f.Related r.frameSites r.closures g

def Scopes (e : Expr) (s s' : Scope) : Prop :=
  r.programs s.program s'.program ∧ r.sites s.site s'.site ∧ r.envs e s.env s'.env

/-- Faults of values are allowed at the place. -/
def Allows (s : Span) : Prop :=
  ∀ {fault : EvalFault}, fault.ofValues = true → r.allowed ⟨fault, s⟩

inductive Outcomes {α β : Type} (R : α → β → Prop) :
    Except EvalError α → Except EvalError β → Prop where
  | ok {a : α} {b : β} : R a b → Outcomes R (.ok a) (.ok b)
  | error {e : EvalError} : r.allowed e → Outcomes R (.error e) (.error (r.moved e))
  | excused {e : EvalError} {y : Except EvalError β} : r.excused e → Outcomes R (.error e) y

/-- Two evaluators have corresponding outcomes in corresponding scopes. -/
def Keeps (eval eval' : Evaluator) : Prop :=
  ∀ {e s s'}, r.Scopes e s s' → r.Outcomes r.Values (eval s e) (eval' s' (e.mapSpans r.place))

end

variable {r : Correspondence}

theorem Outcomes.bind {α β γ δ : Type} {R : α → β → Prop} {S : γ → δ → Prop}
    {x : Except EvalError α} {y : Except EvalError β} {f : α → Except EvalError γ}
    {g : β → Except EvalError δ} (h : r.Outcomes R x y)
    (hfg : ∀ {a b}, R a b → r.Outcomes S (f a) (g b)) : r.Outcomes S (x >>= f) (y >>= g) := by
  cases h with
  | ok hab => exact hfg hab
  | error he => exact .error he
  | excused he => exact .excused he

theorem Outcomes.exists_of_ok {α β : Type} {R : α → β → Prop} {a : α} {y : Except EvalError β}
    (h : r.Outcomes R (.ok a) y) : ∃ b, y = .ok b ∧ R a b := by
  cases h with
  | ok hab => exact ⟨_, rfl, hab⟩

theorem Outcomes.fault {α β : Type} {R : α → β → Prop} {fault : EvalFault} {span : Span}
    (hspan : r.Allows span) (h : fault.ofValues = true) :
    r.Outcomes R (.error ⟨fault, span⟩ : Except EvalError α)
      (.error ⟨fault, r.place span⟩ : Except EvalError β) := by
  rw [← r.moved_eq (fault.isTooDeep_of_ofValues h)]
  exact .error (hspan h)

theorem Outcomes.at {α β : Type} {R : α → β → Prop} {x : Except EvalFault α}
    {y : Except EvalFault β} {span : Span} (hspan : r.Allows span) (h : EvalFault.Related R x y) :
    r.Outcomes R (EvalFault.at span x) (EvalFault.at (r.place span) y) := by
  cases h with
  | ok hab => exact .ok hab
  | error hfault => exact .fault hspan hfault

theorem Scopes.allows {e : Expr} {s s' : Scope} (h : r.Scopes e s s') : r.Allows e.span :=
  fun hfault => r.allowed_other h.2.2 hfault _ List.mem_cons_self

theorem Scopes.allows_place {e : Expr} {s s' : Scope} (h : r.Scopes e s s') {span : Span}
    (hspan : span ∈ e.places) : r.Allows span :=
  fun hfault => r.allowed_other h.2.2 hfault _ (List.mem_cons_of_mem _ hspan)

theorem Scopes.part {e : Expr} {s s' : Scope} (h : r.Scopes e s s') (k : Nat) :
    r.Scopes e (s.part k) (s'.part k) :=
  ⟨h.1, r.sites_cons h.2.1, h.2.2⟩

theorem Scopes.operands {e : Expr} {s s' : Scope} (h : r.Scopes e s s')
    (he : ∀ f arguments span, e ≠ .apply f arguments span) :
    ∀ x ∈ e.operands, r.Scopes x s s' :=
  fun _ hx => ⟨h.1, h.2.1, r.part [] [] h.2.2 he (.operand hx) .nil⟩

/-- Binding names one after the other puts their frames before the environment, the last name
first. -/
theorem exists_frames_bindAll (s s' : Scope) (k : Nat) {names : List String} {vs ws : List Value}
    (hsites : r.sites s.site s'.site) (h : List.Forall₂ r.Values vs ws)
    (hlength : names.length = vs.length) :
    ∃ frames frames', frames.map (·.name) = names.reverse ∧
      List.Forall₂ r.Frames frames frames' ∧
      s.bindAll k (names.zip vs) = { s with env := frames ++ s.env } ∧
      s'.bindAll k (names.zip ws) = { s' with env := frames' ++ s'.env } := by
  induction h generalizing names s s' k with
  | nil =>
    obtain rfl := List.length_eq_zero_iff.1 hlength
    exact ⟨[], [], rfl, .nil, rfl, rfl⟩
  | @cons v w vs ws hvw _ ih =>
    cases names with
    | nil => cases hlength
    | cons name names =>
      obtain ⟨frames, frames', hnames, hframes, hs, hs'⟩ :=
        ih (s.bind k name v) (s'.bind k name w) (k + 1) hsites (Nat.succ.inj hlength)
      have hframe : r.Frames ⟨k :: s.site, name, v⟩ ⟨k :: s'.site, name, w⟩ :=
        ⟨rfl, r.frameSites_cons hsites, hvw⟩
      refine ⟨frames ++ [⟨k :: s.site, name, v⟩], frames' ++ [⟨k :: s'.site, name, w⟩], ?_,
        List.rel_append hframes (.cons hframe .nil), ?_, ?_⟩
      · rw [List.map_append, hnames, List.reverse_cons]
        rfl
      · rw [List.append_assoc]
        exact hs
      · rw [List.append_assoc]
        exact hs'

section

variable {eval eval' : Evaluator} (h : r.Keeps eval eval')

include h

theorem keeps_evalAll {es : List Expr} {s s' : Scope} (hes : ∀ e ∈ es, r.Scopes e s s')
    (k : Nat) :
    r.Outcomes (List.Forall₂ r.Values) (evalAll eval s k es)
      (evalAll eval' s' k (Expr.mapSpansAll r.place es)) := by
  induction es generalizing k with
  | nil => exact .ok .nil
  | cons e es ih =>
    refine (h ((hes e List.mem_cons_self).part k)).bind fun hvw => ?_
    have hrest := ih (fun x hx => hes x (List.mem_cons_of_mem _ hx)) (k + 1)
    exact hrest.bind fun hvs => .ok (.cons hvw hvs)

theorem keeps_apply {c d : Closure} (hcd : r.closures c d) {site site' : Site}
    (hsites : r.sites site site') {vs ws : List Value} (hvs : List.Forall₂ r.Values vs ws)
    {span : Span} (hspan : r.Allows span) :
    r.Outcomes r.Values (c.apply eval site vs span) (d.apply eval' site' ws (r.place span)) := by
  obtain ⟨hlambda, hprogram, henv⟩ := r.closures_iff.1 hcd
  have hlength : (c.lambda.mapSpans r.place).parameters.length = c.lambda.parameters.length :=
    List.length_map ..
  have htexts : (c.lambda.mapSpans r.place).parameters.map (·.text) =
      c.lambda.parameters.map (·.text) := Name.map_text_mapSpan r.place _
  unfold Closure.apply
  rw [hlambda, hlength, htexts, ← hvs.length_eq]
  split
  next hcount =>
    have hnames : (c.lambda.parameters.map (·.text)).length = vs.length := by
      rw [List.length_map, hcount]
    obtain ⟨frames, frames', hframes, hrel, hs, hs'⟩ := exists_frames_bindAll
      ⟨c.program, site, c.env⟩ ⟨d.program, site', d.env⟩ 0 hsites hvs hnames
    have hbody : c.lambda.toExpr.Part (frames.map (·.name)) c.lambda.body := by
      rw [hframes]
      exact .lambda
    simp only [hs, hs']
    exact h ⟨hprogram, r.sites_cons hsites, r.part _ _ henv nofun hbody hrel⟩
  next => exact .fault hspan rfl

theorem keeps_foldFrom {c d : Closure} (hcd : r.closures c d) {site site' : Site}
    (hsites : r.sites site site') {span : Span} (hspan : r.Allows span)
    {steps steps' : List (Value × Value)}
    (hsteps : List.Forall₂ (fun p q => r.Values p.1 q.1 ∧ r.Values p.2 q.2) steps steps')
    (k : Nat) {v w : Value} (hvw : r.Values v w) :
    r.Outcomes r.Values (foldFrom eval c site span k v steps)
      (foldFrom eval' d site' (r.place span) k w steps') := by
  induction hsteps generalizing k v w with
  | nil => exact .ok hvw
  | cons hstep _ ih =>
    have happly := keeps_apply h hcd (r.sites_cons (k := k) hsites)
      (.cons hvw (.cons hstep.1 (.cons hstep.2 .nil))) hspan
    exact happly.bind fun hnext => ih (k + 1) hnext

omit h in
theorem foldValues_of_length_ne {site : Site} {arguments : List Value} (span : Span)
    (hlength : arguments.length ≠ 3) :
    foldValues eval site arguments span = .error ⟨.arity 3 arguments.length, span⟩ := by
  unfold foldValues
  split
  · cases hlength rfl
  · cases hlength rfl
  · rfl

theorem keeps_foldValues {site site' : Site} (hsites : r.sites site site') {vs ws : List Value}
    (hvs : List.Forall₂ r.Values vs ws) {span : Span} (hspan : r.Allows span) :
    r.Outcomes r.Values (foldValues eval site vs span)
      (foldValues eval' site' ws (r.place span)) := by
  by_cases hlength : vs.length = 3
  · match vs, ws, hvs, hlength with
    | [_, _, v], [_, _, w], .cons hfirst (.cons hfunction (.cons hcollection .nil)), _ =>
      cases hfunction with
      | closure hcd =>
        have hsteps := foldSteps?_related hcollection
        simp only [foldValues, hcollection.kind_eq]
        generalize foldSteps? v = x, foldSteps? w = y at hsteps
        cases hsteps with
        | some hsteps => exact keeps_foldFrom h hcd hsites hspan hsteps 0 hfirst
        | none => exact .fault hspan rfl
      | _ => exact .fault hspan rfl
  · have hlength' : ws.length ≠ 3 := hvs.length_eq ▸ hlength
    rw [foldValues_of_length_ne _ hlength, foldValues_of_length_ne _ hlength', hvs.length_eq]
    exact .fault hspan rfl

theorem keeps_call (b : Builtin) {site site' : Site} (hsites : r.sites site site')
    {vs ws : List Value} (hvs : List.Forall₂ r.Values vs ws) {span : Span} (hspan : r.Allows span) :
    r.Outcomes r.Values (b.call eval site vs span) (b.call eval' site' ws (r.place span)) := by
  cases b with
  | concat => exact .at hspan (concatValues_related hvs)
  | merge => exact .at hspan (mergeValues_related hvs)
  | fold => exact keeps_foldValues h hsites hvs hspan

/-- The values of a `let` are evaluated where the frames of the bindings before them stand. -/
theorem keeps_evalBindings (before : List Binding) {bs : List Binding} {body : Expr}
    {span : Span} {a b' : Env}
    (hlet : r.envs (.letIn (before ++ bs) body span) a b') (s s' : Scope)
    (hprograms : r.programs s.program s'.program) (hsites : r.sites s.site s'.site)
    (frames frames' : List Frame) (hs : s.env = frames ++ a) (hs' : s'.env = frames' ++ b')
    (hnames : frames.map (·.name) = (before.map (·.name.text)).reverse)
    (hframes : List.Forall₂ r.Frames frames frames') (k : Nat) :
    r.Outcomes (fun x y => x.1 = y.1 ∧ r.Scopes body x.2 y.2)
      (evalBindings eval s k bs) (evalBindings eval' s' k (Binding.mapSpansAll r.place bs)) := by
  induction bs generalizing before s s' frames frames' k with
  | nil =>
    refine .ok ⟨rfl, hprograms, hsites, ?_⟩
    rw [hs, hs']
    refine r.part _ _ hlet nofun ?_ hframes
    rw [hnames, List.append_nil]
    exact .body
  | cons b bs ih =>
    obtain ⟨n, e⟩ := b
    have hpart : (Expr.letIn (before ++ ⟨n, e⟩ :: bs) body span).Part (frames.map (·.name)) e := by
      rw [hnames]
      exact .binding
    have hvalue : r.Scopes e s s' := by
      refine ⟨hprograms, hsites, ?_⟩
      rw [hs, hs']
      exact r.part _ _ hlet nofun hpart hframes
    refine (h (hvalue.part k)).bind fun {v w} hvw => ?_
    have hframe : r.Frames ⟨k :: s.site, n.text, v⟩ ⟨k :: s'.site, n.text, w⟩ :=
      ⟨rfl, r.frameSites_cons hsites, hvw⟩
    have hbind : (s.bind k n.text v).env = ⟨k :: s.site, n.text, v⟩ :: frames ++ a :=
      congrArg (_ :: ·) hs
    have hbind' : (s'.bind k n.text w).env = ⟨k :: s'.site, n.text, w⟩ :: frames' ++ b' :=
      congrArg (_ :: ·) hs'
    have hlet' : r.envs (.letIn ((before ++ [⟨n, e⟩]) ++ bs) body span) a b' := by
      rwa [List.append_assoc]
    refine ih (before ++ [⟨n, e⟩]) hlet' (s.bind k n.text v) (s'.bind k n.text w) hprograms
      hsites _ _ hbind hbind' ?_ (.cons hframe hframes) (k + 1)
    rw [List.map_cons, hnames, List.map_append, List.reverse_append]
    rfl

theorem keeps_evalFields {es : List Entry} {s s' : Scope}
    (hes : ∀ e ∈ es, r.Scopes e.value s s') (k : Nat) :
    r.Outcomes (List.Forall₂ (Field.Related r.closures)) (evalFields eval s k es)
      (evalFields eval' s' k (Entry.mapSpansAll r.place es)) := by
  induction es generalizing k with
  | nil => exact .ok .nil
  | cons e es ih =>
    cases e
    refine (h ((hes _ List.mem_cons_self).part k)).bind fun hvw => ?_
    have hrest := ih (fun x hx => hes x (List.mem_cons_of_mem _ hx)) (k + 1)
    exact hrest.bind fun hfields => .ok (List.Forall₂.cons (.mk hvw) hfields)

theorem keeps_evalSegments {ss : List Segment} {s s' : Scope}
    (hss : ∀ e, .code e ∈ ss → r.Scopes e s s') (k : Nat) :
    r.Outcomes Eq (evalSegments eval s k ss)
      (evalSegments eval' s' k (Segment.mapSpansAll r.place ss)) := by
  induction ss generalizing k with
  | nil => exact .ok rfl
  | cons segment ss ih =>
    have hrest := ih (fun e he => hss e (List.mem_cons_of_mem _ he)) (k + 1)
    cases segment with
    | text text =>
      refine hrest.bind fun hrest => ?_
      rw [hrest]
      exact .ok rfl
    | code e =>
      have he := hss e List.mem_cons_self
      refine (h (he.part k)).bind fun {v w} hvw => ?_
      rw [hvw.interpolated?_eq, hvw.kind_eq, Expr.span_mapSpans]
      cases w.interpolated? with
      | none => exact .fault he.allows rfl
      | some text =>
        refine hrest.bind fun hrest => ?_
        rw [hrest]
        exact .ok rfl

theorem keeps_evalMap {entries : List Entry} {s s' : Scope}
    (hentries : ∀ e ∈ entries, r.Scopes e.value s s')
    (hkeys : ∀ e ∈ entries, r.Allows e.key.span) (span : Span) :
    r.Outcomes r.Values (evalMap eval s entries span)
      (evalMap eval' s' (Entry.mapSpansAll r.place entries) (r.place span)) := by
  rw [evalMap_eq, evalMap_eq]
  refine (keeps_evalFields h hentries 0).bind fun hfields => ?_
  rw [Entry.map_key_mapSpans, Name.repeated?_map_mapSpan]
  cases hrepeated : Name.repeated? [] (entries.map (·.key)) with
  | some key =>
    obtain ⟨e, he, rfl⟩ := List.mem_map.1 (Name.mem_of_repeated? hrepeated)
    exact .fault (hkeys e he) rfl
  | none => exact .ok (.map hfields)

theorem keeps_evalCall {callee : Expr} {arguments : List Expr} {s s' : Scope}
    (hcallee : r.Scopes callee s s') (harguments : ∀ e ∈ arguments, r.Scopes e s s')
    {span : Span} (hspan : r.Allows span) :
    r.Outcomes r.Values (evalCall eval s callee arguments span)
      (evalCall eval' s' (callee.mapSpans r.place) (Expr.mapSpansAll r.place arguments)
        (r.place span)) := by
  refine (h (hcallee.part 0)).bind fun hfunction => ?_
  have hsites := r.sites_cons (k := arguments.length + 1) hcallee.2.1
  rw [Expr.length_mapSpansAll, Expr.span_mapSpans]
  cases hfunction with
  | closure hcd =>
    exact (keeps_evalAll h harguments 1).bind fun hvs => keeps_apply h hcd hsites hvs hspan
  | _ => exact .fault hcallee.allows rfl

theorem keeps_callMethod {receiver receiver' : Value} (hreceiver : r.Values receiver receiver')
    {site site' : Site} (hsites : r.sites site site') {name : Name} (hname : r.Allows name.span)
    {vs ws : List Value} (hvs : List.Forall₂ r.Values vs ws) {span : Span}
    (hspan : r.Allows span) :
    r.Outcomes r.Values (callMethod eval site receiver name vs span)
      (callMethod eval' site' receiver' (name.mapSpan r.place) ws (r.place span)) := by
  cases hreceiver with
  | @map fs gs hfields =>
    have hget := Field.get?_related hfields name.text
    simp only [callMethod, Name.mapSpan]
    generalize Field.get? fs name.text = x, Field.get? gs name.text = y at hget
    cases hget with
    | none => exact .fault hname rfl
    | some hfield =>
      cases hfield with
      | closure hcd => exact keeps_apply h hcd hsites hvs hspan
      | _ => exact .fault hname rfl
  | string =>
    simp only [callMethod, Name.mapSpan]
    cases Method.ofName? name.text with
    | none => exact .fault hname rfl
    | some method => exact .at hspan (Method.call_related hvs method _)
  | _ => exact .fault hname rfl

omit h in
theorem keeps_accessMember {receiver receiver' : Value} (hreceiver : r.Values receiver receiver')
    {name : Name} (hname : r.Allows name.span) :
    r.Outcomes r.Values (accessMember receiver name)
      (accessMember receiver' (name.mapSpan r.place)) := by
  cases hreceiver with
  | @map fs gs hfields =>
    have hget := Field.get?_related hfields name.text
    simp only [accessMember, Name.mapSpan]
    generalize Field.get? fs name.text = x, Field.get? gs name.text = y at hget
    cases hget with
    | none => exact .fault hname rfl
    | some hfield => exact .ok hfield
  | _ => exact .fault hname rfl

omit h in
theorem keeps_accessIndex {receiver receiver' key key' : Value}
    (hreceiver : r.Values receiver receiver') (hkey : r.Values key key')
    {span keySpan : Span} (hspan : r.Allows span) (hkeySpan : r.Allows keySpan) :
    r.Outcomes r.Values (accessIndex receiver key span keySpan)
      (accessIndex receiver' key' (r.place span) (r.place keySpan)) := by
  cases hreceiver with
  | @map fs gs hfields =>
    cases hkey with
    | @string text =>
      have hget := Field.get?_related hfields text
      simp only [accessIndex]
      generalize Field.get? fs text = x, Field.get? gs text = y at hget
      cases hget with
      | none => exact .fault hkeySpan rfl
      | some hfield => exact .ok hfield
    | _ => exact .fault hkeySpan rfl
  | @list vs ws hitems =>
    cases hkey with
    | @int index =>
      have hitem := itemAt?_related hitems index
      simp only [accessIndex, hitems.length_eq]
      generalize itemAt? vs index = x, itemAt? ws index = y at hitem
      cases hitem with
      | none => exact .fault hkeySpan rfl
      | some hitem => exact .ok hitem
    | _ => exact .fault hkeySpan rfl
  | _ => exact .fault hspan rfl

theorem keeps_apply_step {callee : Expr} {arguments : List Expr} {span : Span} {s s' : Scope}
    (hs : r.Scopes (.apply callee arguments span) s s') :
    r.Outcomes r.Values (Expr.step eval s (.apply callee arguments span))
      (Expr.step eval' s' ((Expr.apply callee arguments span).mapSpans r.place)) := by
  have harguments : ∀ e ∈ arguments, r.Scopes e s s' :=
    fun e he => ⟨hs.1, hs.2.1, r.argument hs.2.2 e he⟩
  obtain ⟨hbuiltin, hcallee⟩ := r.callee hs.2.2
  simp only [Expr.mapSpans, Expr.step, ← hbuiltin, Expr.length_mapSpansAll]
  cases hb : builtin? s.env callee with
  | some b =>
    exact (keeps_evalAll h harguments 0).bind fun hvs =>
      keeps_call h b (r.sites_cons hs.2.1) hvs hs.allows
  | none => exact keeps_evalCall h ⟨hs.1, hs.2.1, hcallee hb⟩ harguments hs.allows

/-- A correspondence that two evaluators keep is kept by the steps made from them. -/
theorem keeps_step : r.Keeps (Expr.step eval) (Expr.step eval') := by
  intro e s s' hs
  cases e with
  | int => exact .ok .int
  | float => exact .ok .float
  | bool => exact .ok .bool
  | template segments =>
    have hparts := hs.operands fun _ _ _ => Expr.noConfusion
    have hcode : ∀ e, .code e ∈ segments → r.Scopes e s s' := fun e he =>
      hparts e (List.mem_filterMap.2 ⟨_, he, rfl⟩)
    refine (keeps_evalSegments h hcode 0).bind fun htext => ?_
    rw [htext]
    exact .ok .string
  | name n =>
    have hvalue := r.lookup hs.2.2
    have hunbound := r.allowed_unbound hs.2.2
    simp only [Expr.mapSpans, Expr.step, Name.mapSpan]
    generalize s.env.lookup? n.text = x, s'.env.lookup? n.text = y at hvalue hunbound
    cases hvalue with
    | none =>
      rw [← r.moved_eq rfl]
      exact .error (hunbound rfl)
    | some hvw => exact .ok hvw
  | letIn bindings body span =>
    refine (keeps_evalBindings h [] hs.2.2 s s' hs.1 hs.2.1 [] [] rfl rfl rfl .nil 0).bind
      fun {x y} hxy => ?_
    obtain ⟨k, inner⟩ := x
    obtain ⟨_, inner'⟩ := y
    obtain ⟨rfl, hbody⟩ := hxy
    exact h (hbody.part k)
  | lambda parameters body span => exact .ok (.closure (r.closures_iff.2 ⟨rfl, hs.1, hs.2.2⟩))
  | apply => exact keeps_apply_step h hs
  | map entries span =>
    have hparts := hs.operands fun _ _ _ => Expr.noConfusion
    have hentries : ∀ e ∈ entries, r.Scopes e.value s s' := fun e he =>
      hparts e.value (List.mem_map_of_mem he)
    have hkeys : ∀ e ∈ entries, r.Allows e.key.span := fun e he =>
      hs.allows_place (List.mem_flatMap.2 ⟨e, he, List.mem_cons_self⟩)
    exact keeps_evalMap h hentries hkeys span
  | list items =>
    have hparts := hs.operands fun _ _ _ => Expr.noConfusion
    exact (keeps_evalAll h hparts 0).bind fun hvs => .ok (.list hvs)
  | member receiver n =>
    have hparts := hs.operands fun _ _ _ => Expr.noConfusion
    have hreceiver := hparts receiver List.mem_cons_self
    have hname : r.Allows n.span :=
      hs.allows_place (List.mem_cons_of_mem receiver.span List.mem_cons_self)
    exact (h (hreceiver.part 0)).bind fun hvw => keeps_accessMember hvw hname
  | method receiver n arguments span =>
    have hparts := hs.operands fun _ _ _ => Expr.noConfusion
    have hreceiver := hparts receiver List.mem_cons_self
    have harguments : ∀ e ∈ arguments, r.Scopes e s s' := fun e he =>
      hparts e (List.mem_cons_of_mem receiver he)
    have hname : r.Allows n.span :=
      hs.allows_place (List.mem_cons_of_mem receiver.span List.mem_cons_self)
    refine (h (hreceiver.part 0)).bind fun hvw => ?_
    rw [Expr.length_mapSpansAll]
    exact (keeps_evalAll h harguments 1).bind fun hvs =>
      keeps_callMethod h hvw (r.sites_cons hs.2.1) hname hvs hs.allows
  | index receiver key =>
    have hparts := hs.operands fun _ _ _ => Expr.noConfusion
    have hreceiver := hparts receiver List.mem_cons_self
    have hkey := hparts key (List.mem_cons_of_mem receiver List.mem_cons_self)
    refine (h (hreceiver.part 0)).bind fun hvw => ?_
    rw [Expr.span_mapSpans, Expr.span_mapSpans]
    exact (h (hkey.part 1)).bind fun hposition =>
      keeps_accessIndex hvw hposition hreceiver.allows hkey.allows

end

/-- The error of nesting too deeply is allowed at expressions, and names the limit of its side. -/
theorem keeps_eval {limit limit' : Nat}
    (hdeep : ∀ {e a b}, r.envs e a b → r.allowed ⟨.tooDeep limit, e.span⟩)
    (hmoved : ∀ span, r.moved ⟨.tooDeep limit, span⟩ = ⟨.tooDeep limit', r.place span⟩) :
    ∀ depth, r.Keeps (Expr.eval limit depth) (Expr.eval limit' depth)
  | 0 => by
    intro hs
    simp only [Expr.eval, Expr.span_mapSpans, ← hmoved]
    exact .error (hdeep hs.2.2)
  | depth + 1 => keeps_step (keeps_eval hdeep hmoved depth)

/-- Where nesting too deeply excuses, the right side may nest more deeply than the left. -/
theorem keeps_eval_of_le {limit limit' : Nat}
    (hdeep : ∀ span, r.excused ⟨.tooDeep limit, span⟩) :
    ∀ {depth depth' : Nat}, depth ≤ depth' →
      r.Keeps (Expr.eval limit depth) (Expr.eval limit' depth')
  | 0, _, _ => fun _ => .excused (hdeep _)
  | _ + 1, _ + 1, hle => keeps_step (keeps_eval_of_le hdeep (Nat.le_of_succ_le_succ hle))

/-! ## Programs -/

section

variable {p q : Program} {run run' : Run} {limit limit' : Nat}
  (h : r.Keeps (Expr.eval limit limit) (Expr.eval limit' limit'))
  (hprograms : r.programs run.program run'.program) (hsites : r.sites [run.number] [run'.number])

include h hprograms hsites

theorem keeps_evaluateIn_moved (hpq : q.expression = p.expression.mapSpans r.place) {a b : Env}
    (henvs : r.envs p.expression a b) :
    r.Outcomes r.Values (p.evaluateIn run a limit) (q.evaluateIn run' b limit') := by
  rw [Program.evaluateIn, Program.evaluateIn, hpq]
  exact h ⟨hprograms, r.sites_cons hsites, henvs⟩

theorem keeps_evaluateWith_moved (hpq : q.expression = p.expression.mapSpans r.place)
    {arguments arguments' : List (String × Value)}
    (henvs : r.envs p.expression (Program.argumentEnv run arguments)
      (Program.argumentEnv run' arguments'))
    (hvalues : ∀ {c}, p.evaluateIn run (Program.argumentEnv run arguments) limit =
      .ok (.closure c) → r.Outcomes (List.Forall₂ r.Values)
        (Program.parameterValues (Program.argumentEnv run arguments) c.lambda.parameters)
        (Program.parameterValues (Program.argumentEnv run' arguments')
          (c.lambda.mapSpans r.place).parameters)) :
    r.Outcomes r.Values (p.evaluateWith run arguments limit)
      (q.evaluateWith run' arguments' limit') := by
  have hvalue := keeps_evaluateIn_moved h hprograms hsites hpq henvs
  have hspan : q.expression.span = r.place p.expression.span := by rw [hpq, Expr.span_mapSpans]
  simp only [Program.evaluateWith, hspan]
  generalize p.evaluateIn run (Program.argumentEnv run arguments) limit = x,
    q.evaluateIn run' (Program.argumentEnv run' arguments') limit' = y at hvalue hvalues
  cases hvalue with
  | error he => exact .error he
  | excused he => exact .excused he
  | ok hvw =>
    have hself := hvw
    cases hvw with
    | @closure c d hcd =>
      have hparameters := hvalues rfl
      have hbody : ∀ {vs ws}, List.Forall₂ r.Values vs ws →
          r.Outcomes r.Values (c.apply (Expr.eval limit limit) [1, run.number] vs p.expression.span)
            (d.apply (Expr.eval limit' limit') [1, run'.number] ws
              (r.place p.expression.span)) :=
        fun hvs => keeps_apply h hcd (r.sites_cons hsites) hvs fun hfault =>
          r.allowed_other henvs hfault _ List.mem_cons_self
      show r.Outcomes r.Values (Program.parameterValues _ c.lambda.parameters >>= _)
        (Program.parameterValues _ d.lambda.parameters >>= _)
      rw [(r.closures_iff.1 hcd).1]
      exact hparameters.bind hbody
    | _ => exact .ok hself

end

/-- Both sides evaluate one expression. -/
class Still (r : Correspondence) : Prop where
  places_eq : r.toPlaces = .still

section

variable [r.Still] {p : Program} {run run' : Run} {limit limit' : Nat}
  (h : r.Keeps (Expr.eval limit limit) (Expr.eval limit' limit'))
  (hprograms : r.programs run.program run'.program) (hsites : r.sites [run.number] [run'.number])

include h hprograms hsites

omit h hprograms hsites in
theorem mapSpans_place (e : Expr) : e = e.mapSpans r.place := by
  rw [Still.places_eq, Expr.mapSpans_still]

theorem keeps_evaluateIn {a b : Env} (henvs : r.envs p.expression a b) :
    r.Outcomes r.Values (p.evaluateIn run a limit) (p.evaluateIn run' b limit') :=
  keeps_evaluateIn_moved h hprograms hsites (mapSpans_place p.expression) henvs

theorem keeps_evaluateWith {arguments arguments' : List (String × Value)}
    (henvs : r.envs p.expression (Program.argumentEnv run arguments)
      (Program.argumentEnv run' arguments'))
    (hvalues : ∀ {c}, p.evaluateIn run (Program.argumentEnv run arguments) limit =
      .ok (.closure c) → r.Outcomes (List.Forall₂ r.Values)
        (Program.parameterValues (Program.argumentEnv run arguments) c.lambda.parameters)
        (Program.parameterValues (Program.argumentEnv run' arguments') c.lambda.parameters)) :
    r.Outcomes r.Values (p.evaluateWith run arguments limit)
      (p.evaluateWith run' arguments' limit') := by
  refine keeps_evaluateWith_moved h hprograms hsites (mapSpans_place p.expression) henvs
    fun {c} hc => ?_
  rw [Still.places_eq, Lambda.mapSpans_still]
  exact hvalues hc

end

end Correspondence

end ConfigExpr
