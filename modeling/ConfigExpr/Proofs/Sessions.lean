import ConfigExpr.Command.Session
import ConfigExpr.Proofs.ErrorPlaces
import ConfigExpr.Proofs.FreeNames

/-!
# Sessions

What one line does to a session, and what holds of a session after any lines. A session keeps the
closures that its lines have bound, so that a line can fail in the text of an earlier one; the
error is reported against the source of the line that failed all the same
(`Session.eval_error_within`).
-/

namespace ConfigExpr

namespace Env

open Classical in
/-- The frames whose values hold no closure. -/
noncomputable def withoutClosures (env : Env) : Env :=
  env.filter fun f => f.value.ClosureFree

theorem lookup?_withoutClosures {env : Env} {name : String}
    (h : ∀ v, env.lookup? name = some v → v.ClosureFree) :
    env.withoutClosures.lookup? name = env.lookup? name := by
  induction env with
  | nil => rfl
  | cons f env ih =>
    unfold withoutClosures at ih ⊢
    rw [lookup?_cons] at h ⊢
    by_cases hname : f.name = name
    · rw [if_pos hname] at h ⊢
      rw [List.filter_cons_of_pos (by simpa using h _ rfl), lookup?_cons, if_pos hname]
    · rw [if_neg hname] at h ⊢
      rw [List.filter_cons]
      split
      · rw [lookup?_cons, if_neg hname, ih h]
      · exact ih h

end Env

/-- The expression that a line asks for, or binds a name to. -/
def lineSource (line : String) : String :=
  String.ofList (splitBinding (trimLineEnd line.toList)).2

/-- The name that a line binds. -/
def lineName? (line : String) : Option String :=
  (splitBinding (trimLineEnd line.toList)).1

namespace Session

/-- The session that the lines lead to. -/
inductive Reached : List String → Session → Prop where
  | start : Reached [] start
  | feed {lines : List String} {s s' : Session} {line : String} {reply : Reply} :
    Reached lines s → s.feed line = some (s', reply) → Reached (lines ++ [line]) s'

/-- The environment after a line with a value, if it binds a name. -/
def envAfter (s : Session) (value : Value) : Option String → Env
  | none => s.env
  | some name => s.env.extend [s.answered] name value

variable {s s' : Session} {line : String} {reply : Reply}

/-- A line fails and binds nothing, or it has a value and may bind it. -/
theorem answer_cases {line : List Char} (h : s.answer line = (s', reply)) :
    (∃ p, s.evaluate (String.ofList (splitBinding line).2) = .error p ∧
      s' = ⟨s.env, s.answered + 1⟩ ∧ reply = .problem p) ∨
    ∃ value, s.evaluate (String.ofList (splitBinding line).2) = .ok value ∧
      s' = ⟨s.envAfter value (splitBinding line).1, s.answered + 1⟩ ∧ ∀ p, reply ≠ .problem p := by
  unfold answer at h
  generalize splitBinding line = parts at h ⊢
  obtain ⟨name, source⟩ := parts
  dsimp only at h ⊢
  split at h
  next p he =>
    cases h
    exact .inl ⟨p, he, rfl, rfl⟩
  next value hv =>
    cases h
    exact .inr ⟨value, hv, rfl, by simp⟩
  next value name hv =>
    cases h
    exact .inr ⟨value, hv, rfl, by simp⟩

/-- A line is passed over, fails, or has a value. -/
theorem feed_cases (h : s.feed line = some (s', reply)) :
    (s' = s ∧ ∀ p, reply ≠ .problem p) ∨
    (∃ p, s.evaluate (lineSource line) = .error p ∧ s' = ⟨s.env, s.answered + 1⟩ ∧
      reply = .problem p) ∨
    ∃ value, s.evaluate (lineSource line) = .ok value ∧
      s' = ⟨s.envAfter value (lineName? line), s.answered + 1⟩ ∧ ∀ p, reply ≠ .problem p := by
  unfold feed at h
  dsimp only at h
  split at h
  · cases h
    exact .inl ⟨rfl, by simp⟩
  split at h
  · cases h
  split at h
  · cases h
    exact .inl ⟨rfl, by simp⟩
  · exact .inr (answer_cases (Option.some.inj h))

/-- The line is not empty and asks neither for the names nor to end the session. -/
structure Asks (line : String) : Prop where
  ne_nil : trimLineEnd line.toList ≠ []
  ne_exit : trimLineEnd line.toList ≠ exitLine
  ne_names : trimLineEnd line.toList ≠ namesLine

theorem Asks.feed_eq (h : Asks line) (s : Session) :
    s.feed line = some (s.answer (trimLineEnd line.toList)) := by
  simp only [feed, h.ne_nil, h.ne_exit, h.ne_names, if_false]

theorem Asks.feed_of_error {p : Problem} (h : Asks line)
    (he : s.evaluate (lineSource line) = .error p) :
    s.feed line = some (⟨s.env, s.answered + 1⟩, .problem p) := by
  rw [lineSource] at he
  simp only [h.feed_eq, answer, he]

theorem Asks.feed_of_ok {value : Value} {name : String} (h : Asks line)
    (hv : s.evaluate (lineSource line) = .ok value) (hname : lineName? line = some name) :
    s.feed line = some (⟨s.env.extend [s.answered] name value, s.answered + 1⟩, .silent) := by
  rw [lineSource] at hv
  rw [lineName?] at hname
  simp only [h.feed_eq, answer, hv, hname]

/-! ## Places of errors -/

open ScopeProperty

/-- All places in the closures that are bound satisfy a property. -/
def Keeps (g : Span → Prop) (s : Session) : Prop :=
  (places g).GoodEnv (fun _ => True) s.env

theorem Keeps.imp {g g' : Span → Prop} (h : s.Keeps g) (hg : ∀ span, g span → g' span) :
    s.Keeps g' := by
  intro f hf c hc
  obtain ⟨-, hplaces⟩ := h f hf c hc
  exact ⟨trivial, hplaces.imp fun x hx span hspan => hg span (hx span hspan)⟩

theorem Keeps.extend {g : Span → Prop} {value : Value} (h : s.Keeps g)
    (hvalue : ∀ c, value.Contains c → (places g).Good (fun _ => True) c) (name : Option String) :
    Keeps g ⟨s.envAfter value name, s.answered + 1⟩ := by
  cases name with
  | none => exact h
  | some name => exact List.forall_mem_cons.2 ⟨hvalue, h⟩

theorem evaluate_eq_ok {source : String} {value : Value} (h : s.evaluate source = .ok value) :
    ∃ p, Program.parse source = .ok p ∧
      p.evaluateIn ⟨s.answered, s.answered⟩ s.env defaultLimit = .ok value := by
  unfold evaluate at h
  split at h
  next => cases h
  next p hp =>
    split at h
    next hv =>
      cases h
      exact ⟨p, hp, hv⟩
    next => cases h

theorem evaluate_eq_eval_error {source path text : String} {e : EvalError}
    (h : s.evaluate source = .error (.eval path text e)) :
    text = source ∧ ∃ p, Program.parse source = .ok p ∧
      p.evaluateIn ⟨s.answered, s.answered⟩ s.env defaultLimit = .error e := by
  unfold evaluate at h
  split at h
  next => cases h
  next p hp =>
    split at h
    next => cases h
    next he =>
      cases h
      exact ⟨rfl, p, hp, he⟩

/-- Evaluating a source adds the places in it to those in the closures that are bound. -/
theorem settled_of_parse {g : Span → Prop} {source : String} {p : Program} {env : Env}
    (henv : (places g).GoodEnv (fun _ => True) env) (hp : Program.parse source = .ok p)
    (hg : ∀ span, span.Within source.toList → g span) (run : Run) (limit : Nat) :
    (places g).Settled (fun _ => True) (fun e => g e.span) (p.evaluateIn run env limit) := by
  refine Program.settled_places henv ((Program.within_places_of_parse hp).imp ?_) run limit
  exact fun x hx span hspan => hg span (hx span hspan)

/-- The place is in the source of one of the lines. -/
def InLines (lines : List String) (span : Span) : Prop :=
  ∃ line ∈ lines, span.Within (lineSource line).toList

theorem InLines.append {lines : List String} {span : Span} (h : InLines lines span)
    (line : String) : InLines (lines ++ [line]) span := by
  obtain ⟨l, hl, hspan⟩ := h
  exact ⟨l, List.mem_append_left _ hl, hspan⟩

theorem inLines_last {lines : List String} {line : String} {span : Span}
    (h : span.Within (lineSource line).toList) : InLines (lines ++ [line]) span :=
  ⟨line, List.mem_append_right _ (List.mem_singleton_self line), h⟩

/-- Closures stand in the lines read so far, and feeding a line keeps them so. -/
theorem keeps_feed {lines : List String} (h : s.Keeps (InLines lines))
    (hfeed : s.feed line = some (s', reply)) : s'.Keeps (InLines (lines ++ [line])) := by
  have hkeeps : s.Keeps (InLines (lines ++ [line])) := h.imp fun _ hspan => hspan.append line
  rcases feed_cases hfeed with ⟨rfl, -⟩ | ⟨p, -, rfl, -⟩ | ⟨value, hvalue, rfl, -⟩
  · exact hkeeps
  · exact hkeeps
  · obtain ⟨p, hp, hvalue⟩ := evaluate_eq_ok hvalue
    have hsettled := settled_of_parse hkeeps hp (fun _ => inLines_last) ⟨s.answered, s.answered⟩
      defaultLimit
    rw [hvalue] at hsettled
    exact hkeeps.extend hsettled _

theorem Reached.keeps {lines : List String} (h : Reached lines s) : s.Keeps (InLines lines) := by
  induction h with
  | start => exact List.forall_mem_nil _
  | feed _ hfeed ih => exact keeps_feed ih hfeed

/-- If the free names of a program stand for values without closures, its errors lie in its
source. -/
theorem within_of_evaluateIn {source : String} {p : Program} {run : Run} {limit : Nat} {env : Env}
    {e : EvalError} (hp : Program.parse source = .ok p)
    (hfree : ∀ x v, p.expression.Free x → env.lookup? x = some v → v.ClosureFree)
    (h : p.evaluateIn run env limit = .error e) : e.span.Within source.toList := by
  have halike : ShownAlike (p.evaluateIn run env limit)
      (p.evaluateIn run env.withoutClosures limit) :=
    Program.shownAlike_evaluateIn fun x hx => (Env.lookup?_withoutClosures (hfree x · hx)).symm
  have hframes : ∀ f ∈ env.withoutClosures, f.value.ClosureFree := fun f hf => by
    simpa using (List.mem_filter.1 hf).2
  have hsettled := settled_of_parse (goodEnv_of_closureFree hframes) hp (fun _ => id) run limit
  rw [h] at halike
  generalize p.evaluateIn run env.withoutClosures limit = x at halike hsettled
  cases halike
  exact hsettled

/-- An evaluation error of a line is reported against the source of that line, but lies in that of
some line so far. It lies in the source of the line itself if the names free there stand for values
without closures. -/
theorem eval_error_within {lines : List String} {path source : String} {e : EvalError}
    (h : Reached lines s) (hfeed : s.feed line = some (s', .problem (.eval path source e))) :
    source = lineSource line ∧ InLines (lines ++ [line]) e.span ∧
      ∃ p, Program.parse source = .ok p ∧
        ((∀ x v, p.expression.Free x → s.env.lookup? x = some v → v.ClosureFree) →
          e.span.Within source.toList) := by
  rcases feed_cases hfeed with ⟨-, hreply⟩ | ⟨p, he, -, hreply⟩ | ⟨value, -, -, hreply⟩
  · exact absurd rfl (hreply _)
  · cases hreply
    obtain ⟨rfl, p, hp, he⟩ := evaluate_eq_eval_error he
    refine ⟨rfl, ?_, p, hp, fun hfree => within_of_evaluateIn hp hfree he⟩
    have hkeeps : s.Keeps (InLines (lines ++ [line])) :=
      h.keeps.imp fun _ hspan => hspan.append line
    have hsettled := settled_of_parse hkeeps hp (fun _ => inLines_last) ⟨s.answered, s.answered⟩
      defaultLimit
    rwa [he] at hsettled
  · exact absurd rfl (hreply _)

/-- The session after a line that binds a function with an unbound name in it. -/
def afterFunction : Session :=
  ⟨[⟨[0], "f", .closure ⟨⟨[], .name ⟨"zzzzzzzz", ⟨7, 15⟩⟩, ⟨1, 15⟩⟩, 0, []⟩⟩], 1⟩

/-- The unbound name of that function, at its place there. -/
def functionError : EvalError :=
  ⟨.unbound "zzzzzzzz", ⟨7, 15⟩⟩

set_option maxRecDepth 8000 in
theorem reached_afterFunction : Reached ["f = () => zzzzzzzz"] afterFunction := by
  have hsource : lineSource "f = () => zzzzzzzz" = " () => zzzzzzzz" := by cbv
  have hvalue : start.evaluate " () => zzzzzzzz" =
      .ok (.closure ⟨⟨[], .name ⟨"zzzzzzzz", ⟨7, 15⟩⟩, ⟨1, 15⟩⟩, 0, []⟩) := by cbv
  rw [← hsource] at hvalue
  have hasks : Asks "f = () => zzzzzzzz" := ⟨by decide, by decide, by decide⟩
  exact .feed .start (hasks.feed_of_ok hvalue (by cbv))

set_option maxRecDepth 8000 in
theorem feed_afterFunction : afterFunction.feed "f()" =
    some (⟨afterFunction.env, 2⟩, .problem (.eval "<repl>" "f()" functionError)) := by
  have hsource : lineSource "f()" = "f()" := by cbv
  have herror : afterFunction.evaluate "f()" = .error (.eval "<repl>" "f()" functionError) := by
    cbv
  rw [← hsource] at herror
  have hasks : Asks "f()" := ⟨by decide, by decide, by decide⟩
  have hfeed := hasks.feed_of_error herror
  rwa [hsource] at hfeed

/-- A function that one line binds fails in the next one, which is shorter than the function. -/
theorem eval_error_outside :
    ∃ s s' e, Reached ["f = () => zzzzzzzz"] s ∧
      s.feed "f()" = some (s', .problem (.eval "<repl>" "f()" e)) ∧
      ¬ e.span.stop ≤ bytes "f()".toList :=
  ⟨_, _, functionError, reached_afterFunction, feed_afterFunction, by decide⟩

set_option maxRecDepth 8000 in
/-- A function that is bound fails in the line that it stands in. A list has no fields, and that
error lies in the line that asks for one. -/
theorem eval_error_within_function :
    ∃ s s' s'' e e', Reached ["f = () => zzzzzzzz"] s ∧
      s.feed "f()" = some (s', .problem (.eval "<repl>" "f()" e)) ∧
      InLines ["f = () => zzzzzzzz", "f()"] e.span ∧
      s.feed "[].k" = some (s'', .problem (.eval "<repl>" "[].k" e')) ∧
      e'.span.Within "[].k".toList := by
  let e' : EvalError := ⟨.noMethod "k" .list, ⟨3, 4⟩⟩
  have hsource : lineSource "[].k" = "[].k" := by cbv
  have herror : afterFunction.evaluate "[].k" = .error (.eval "<repl>" "[].k" e') := by cbv
  have hasks : Asks "[].k" := ⟨by decide, by decide, by decide⟩
  have hmember : afterFunction.feed "[].k" =
      some (⟨afterFunction.env, 2⟩, .problem (.eval "<repl>" "[].k" e')) :=
    hasks.feed_of_error (by rw [hsource]; exact herror)
  obtain ⟨-, hcallee, -⟩ := eval_error_within reached_afterFunction feed_afterFunction
  obtain ⟨-, -, p, hp, hwithin⟩ := eval_error_within reached_afterFunction hmember
  have hparse : Program.parse "[].k" =
      .ok ⟨.member (.list [] ⟨0, 2⟩) ⟨"k", ⟨3, 4⟩⟩ ⟨0, 4⟩, []⟩ := by cbv
  cases hp.symm.trans hparse
  refine ⟨_, _, _, _, e', reached_afterFunction, feed_afterFunction, hcallee, hmember,
    hwithin fun x v hx => ?_⟩
  -- No name occurs in the line.
  cases hx with
  | part hpart _ hx =>
    cases hpart with
    | operand hlist =>
      obtain rfl := List.mem_singleton.1 hlist
      cases hx with
      | part hpart => cases hpart with | operand hitem => cases hitem

end Session

end ConfigExpr
