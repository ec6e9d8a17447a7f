import ConfigExpr.Proofs.Relocation
import ConfigExpr.Proofs.Sessions

/-!
# A session as one block

The lines of a session that bind a name are the bindings of one `let`: a further expression has the
outcome in the session that it has as the body of that `let`, one evaluation deeper. All other lines
leave the session as it was, but for the number of lines answered, and that shows in no reply
(`Session.grows_as_block`).
-/

namespace ConfigExpr

/-- An outcome, and the same one where an evaluation more is around it. -/
inductive OneDeeper : Except EvalError Value → Except EvalError Value → Prop where
  | value {v w : Value} : toString v = toString w → OneDeeper (.ok v) (.ok w)
  | fault {fault : EvalFault} {span : Span} :
    fault.isTooDeep = false → OneDeeper (.error ⟨fault, span⟩) (.error ⟨fault, span⟩)
  | tooDeep {span : Span} :
    OneDeeper (.error ⟨.tooDeep defaultLimit, span⟩) (.error ⟨.tooDeep (defaultLimit + 1), span⟩)

theorem evalBindings_append (eval : Evaluator) (scope : Scope) (k : Nat) (bs cs : List Binding) :
    evalBindings eval scope k (bs ++ cs) =
      evalBindings eval scope k bs >>= fun x => evalBindings eval x.2 x.1 cs := by
  induction bs generalizing scope k with
  | nil => rfl
  | cons b bs ih =>
    simp only [List.cons_append, evalBindings, bind_assoc, ih]

namespace Session

/-- The session after some lines, or `none` if one of them ends it. -/
def after? (s : Session) : List String → Option Session
  | [] => some s
  | line :: lines =>
    match s.feed line with
    | none => none
    | some (s', _) => s'.after? lines

/-- The replies to some lines, up to one that ends the session. -/
def replies (s : Session) : List String → List Reply
  | [] => []
  | line :: lines =>
    match s.feed line with
    | none => []
    | some (s', reply) => reply :: s'.replies lines

/-- The binding that a line makes: it begins with a name, and its expression has a value. -/
def binding? (s : Session) (line : String) : Option Binding :=
  match lineName? line, Program.parse (lineSource line), s.evaluate (lineSource line) with
  | some name, .ok p, .ok _ => some ⟨.of name, p.expression⟩
  | _, _, _ => none

/-- The bindings that some lines make, in their order. -/
def bindings (s : Session) : List String → List Binding
  | [] => []
  | line :: lines =>
    match s.feed line with
    | none => []
    | some (s', _) => (s.binding? line).toList ++ s'.bindings lines

/-- A line that is empty or asks for the names, that begins with no name, or whose expression does
not parse or has no value. -/
def BindsNothing (s : Session) (line : String) : Prop :=
  trimLineEnd line.toList = [] ∨ trimLineEnd line.toList = namesLine ∨ lineName? line = none ∨
    ∃ p, s.evaluate (lineSource line) = .error p

variable {s s' t : Session} {line : String} {reply : Reply}

theorem lineName?_of_nil (h : trimLineEnd line.toList = []) : lineName? line = none := by
  rw [lineName?, h]
  cbv

theorem lineName?_of_names (h : trimLineEnd line.toList = namesLine) : lineName? line = none := by
  rw [lineName?, h]
  cbv

/-- A line that asks for no value binds no name and changes nothing. -/
theorem feed_eq_some (h : s.feed line = some (s', reply)) :
    (s' = s ∧ lineName? line = none) ∨ s.answer (trimLineEnd line.toList) = (s', reply) := by
  unfold feed at h
  dsimp only at h
  split at h
  next hnil =>
    cases h
    exact .inl ⟨rfl, lineName?_of_nil hnil⟩
  split at h
  · cases h
  split at h
  next hnames =>
    cases h
    exact .inl ⟨rfl, lineName?_of_names hnames⟩
  · exact .inr (Option.some.inj h)

theorem exitLine_of_feed (h : s.feed line = none) : trimLineEnd line.toList = exitLine := by
  unfold feed at h
  dsimp only at h
  split at h
  · cases h
  split at h
  next hexit => exact hexit
  · split at h <;> cases h

/-! ## Lines that bind nothing -/

/-- The same names in the same order, bound to the same values but for sites. -/
abbrev BoundAlike (s t : Session) : Prop :=
  (Relocation.still defaultLimit defaultLimit).Envs s.env t.env

theorem BoundAlike.evaluate (h : s.BoundAlike t) (source : String) :
    (∃ p, s.evaluate source = .error p ∧ t.evaluate source = .error p) ∨
    ∃ v w, s.evaluate source = .ok v ∧ t.evaluate source = .ok w ∧
      (Relocation.still defaultLimit defaultLimit).Values v w := by
  unfold Session.evaluate
  cases Program.parse source with
  | error e => exact .inl ⟨_, rfl, rfl⟩
  | ok p =>
    have hvalue := Relocation.keeps_evaluateIn p.expression.mapSpans_id.symm
      ⟨s.answered, s.answered⟩ ⟨t.answered, t.answered⟩ defaultLimit h
    dsimp only
    generalize p.evaluateIn ⟨s.answered, s.answered⟩ s.env defaultLimit = x,
      p.evaluateIn ⟨t.answered, t.answered⟩ t.env defaultLimit = y at hvalue
    cases hvalue with
    | ok hvw => exact .inr ⟨_, _, rfl, rfl, hvw⟩
    | fault | tooDeep => exact .inl ⟨_, rfl, rfl⟩

/-- Sessions with the same bindings reply alike and stay so. -/
theorem BoundAlike.feed (h : s.BoundAlike t) (line : String) :
    (s.feed line = none ∧ t.feed line = none) ∨
    ∃ s' t' reply, s.feed line = some (s', reply) ∧ t.feed line = some (t', reply) ∧
      s'.BoundAlike t' := by
  unfold Session.feed
  dsimp only
  split
  · exact .inr ⟨s, t, _, rfl, rfl, h⟩
  split
  · exact .inl ⟨rfl, rfl⟩
  split
  · exact .inr ⟨s, t, _, rfl, by rw [Relocation.names_envs h], h⟩
  · refine .inr ?_
    unfold answer
    generalize splitBinding (trimLineEnd line.toList) = parts
    obtain ⟨name, source⟩ := parts
    dsimp only
    rcases h.evaluate (String.ofList source) with ⟨p, hs, ht⟩ | ⟨v, w, hs, ht, hvw⟩
    · rw [hs, ht]
      exact ⟨_, _, _, rfl, rfl, h⟩
    · rw [hs, ht]
      cases name with
      | none =>
        exact ⟨⟨s.env, s.answered + 1⟩, ⟨t.env, t.answered + 1⟩, .value (toString v), rfl,
          by rw [Relocation.Values.toString_eq hvw], h⟩
      | some name => exact ⟨_, _, _, rfl, rfl, .cons (.mk rfl hvw) h⟩

theorem BoundAlike.replies_eq (h : s.BoundAlike t) (lines : List String) :
    s.replies lines = t.replies lines := by
  induction lines generalizing s t with
  | nil => rfl
  | cons line lines ih =>
    rcases h.feed line with ⟨hs, ht⟩ | ⟨s', t', reply, hs, ht, halike⟩
    · simp only [replies, hs, ht]
    · simp only [replies, hs, ht, ih halike]

/-- Nothing of a session but its bindings shows, so that it is enough to follow one session. -/
theorem BoundAlike.after {lines : List String} (h : s.BoundAlike s)
    (hafter : s.after? lines = some s') : s'.BoundAlike s' := by
  induction lines generalizing s with
  | nil =>
    cases hafter
    exact h
  | cons line lines ih =>
    rcases h.feed line with ⟨hs, -⟩ | ⟨t, t', reply, hs, ht, halike⟩
    · simp only [after?, hs] at hafter
      cases hafter
    · cases hs.symm.trans ht
      simp only [after?, hs] at hafter
      exact ih halike hafter

theorem env_of_bindsNothing (h : s.BindsNothing line)
    (hfeed : s.feed line = some (s', reply)) : s'.env = s.env := by
  have hcases : lineName? line = none ∨ ∃ p, s.evaluate (lineSource line) = .error p := by
    rcases h with h | h | h | h
    · exact .inl (lineName?_of_nil h)
    · exact .inl (lineName?_of_names h)
    · exact .inl h
    · exact .inr h
  rcases feed_cases hfeed with ⟨rfl, -⟩ | ⟨p, -, rfl, -⟩ | ⟨value, hvalue, rfl, -⟩
  · rfl
  · rfl
  · rcases hcases with hname | ⟨p, hp⟩
    · rw [hname]
      rfl
    · cases hp.symm.trans hvalue

/-! ## Lines that bind -/

/-- The bindings, as those of a block, give the environment of the session. -/
def InBlock (bs : List Binding) (s : Session) : Prop :=
  ∀ program site, ∃ x,
    evalBindings (Expr.eval (defaultLimit + 1) defaultLimit) ⟨program, site, []⟩ 0 bs = .ok x ∧
      (Relocation.still defaultLimit (defaultLimit + 1)).Envs s.env x.2.env

theorem InBlock.of_env_eq {bs : List Binding} (h : InBlock bs s) (henv : s'.env = s.env) :
    InBlock (bs ++ []) s' := by
  unfold InBlock
  rw [List.append_nil, henv]
  exact h

/-- After the bindings an expression has the outcome that it has in the session. -/
theorem InBlock.keeps_evaluateIn {bs : List Binding} (h : InBlock bs s) (p : Program)
    (program : Nat) (site : List Nat) :
    ∃ x, evalBindings (Expr.eval (defaultLimit + 1) defaultLimit) ⟨program, site, []⟩ 0 bs = .ok x ∧
      (Relocation.still defaultLimit (defaultLimit + 1)).Envs s.env x.2.env ∧
      Relocation.Outcomes (.still defaultLimit (defaultLimit + 1))
        (Relocation.Values (.still defaultLimit (defaultLimit + 1)))
        (p.evaluateIn ⟨s.answered, s.answered⟩ s.env defaultLimit)
        (Expr.eval (defaultLimit + 1) defaultLimit (x.2.part x.1) p.expression) := by
  obtain ⟨x, hx, henv⟩ := h program site
  exact ⟨x, hx, henv, Relocation.keeps_still _ _ _ _ (x.2.part x.1) henv p.expression⟩

/-- One more binding is one more line with a value. -/
theorem InBlock.extend {bs : List Binding} {p : Program} {value : Value} (h : InBlock bs s)
    (hvalue : p.evaluateIn ⟨s.answered, s.answered⟩ s.env defaultLimit = .ok value)
    (name : String) :
    InBlock (bs ++ [⟨.of name, p.expression⟩])
      ⟨s.env.extend [s.answered] name value, s.answered + 1⟩ := by
  intro program site
  obtain ⟨x, hx, henv, hinner⟩ := h.keeps_evaluateIn p program site
  rw [hvalue] at hinner
  generalize hy : Expr.eval (defaultLimit + 1) defaultLimit (x.2.part x.1) p.expression = y
    at hinner
  cases hinner with
  | @ok _ w hvw =>
    refine ⟨(x.1 + 1, x.2.bind x.1 name w), ?_, .cons (.mk rfl hvw) henv⟩
    rw [evalBindings_append, hx]
    show Expr.eval _ _ (x.2.part x.1) p.expression >>= _ = _
    rw [hy]
    rfl

theorem binding?_of_error {p : Problem} (h : s.evaluate (lineSource line) = .error p) :
    s.binding? line = none := by
  unfold binding?
  rw [h]
  split
  next hvalue => cases hvalue
  next => rfl

theorem inBlock_feed {bs : List Binding} (h : InBlock bs s)
    (hfeed : s.feed line = some (s', reply)) : InBlock (bs ++ (s.binding? line).toList) s' := by
  rcases feed_eq_some hfeed with ⟨rfl, hname⟩ | hanswer
  · rw [binding?, hname]
    exact h.of_env_eq rfl
  rcases answer_cases hanswer with ⟨p, hp, rfl, -⟩ | ⟨value, hvalue, rfl, -⟩
  · rw [binding?_of_error hp]
    exact h.of_env_eq rfl
  · rw [← lineSource] at hvalue
    rw [← lineName?]
    obtain ⟨p, hp, heval⟩ := evaluate_eq_ok hvalue
    rw [binding?, hp, hvalue]
    cases lineName? line with
    | none => exact h.of_env_eq rfl
    | some name => exact h.extend heval name

theorem InBlock.after {bs : List Binding} {lines : List String} (h : InBlock bs s)
    (hafter : s.after? lines = some s') : InBlock (bs ++ s.bindings lines) s' := by
  induction lines generalizing s bs with
  | nil =>
    cases hafter
    exact h.of_env_eq rfl
  | cons line lines ih =>
    rw [after?] at hafter
    split at hafter
    next => cases hafter
    next s₁ reply hfeed =>
      simp only [bindings, hfeed]
      rw [← List.append_assoc]
      exact ih (inBlock_feed h hfeed) hafter

theorem InBlock.oneDeeper {bs : List Binding} (h : InBlock bs s) (p : Program) (run : Run)
    (span : Span) :
    OneDeeper (p.evaluateIn ⟨s.answered, s.answered⟩ s.env defaultLimit)
      (Program.evaluateIn ⟨.letIn bs p.expression span, []⟩ run [] (defaultLimit + 1)) := by
  obtain ⟨x, hx, -, hinner⟩ := h.keeps_evaluateIn p run.program [0, run.number]
  have hblock : Program.evaluateIn ⟨.letIn bs p.expression span, []⟩ run [] (defaultLimit + 1) =
      Expr.eval (defaultLimit + 1) defaultLimit (x.2.part x.1) p.expression := by
    rw [Program.evaluateIn, Expr.eval, Expr.step, hx]
    rfl
  rw [hblock]
  generalize p.evaluateIn _ s.env defaultLimit = a,
    Expr.eval (defaultLimit + 1) defaultLimit (x.2.part x.1) p.expression = b at hinner
  cases hinner with
  | ok hvw => exact .value (Relocation.Values.toString_eq hvw)
  | fault span hfault => exact .fault hfault
  | tooDeep => exact .tooDeep

theorem exists_after {lines : List String}
    (h : ∀ line ∈ lines, trimLineEnd line.toList ≠ exitLine) (s : Session) :
    ∃ s', s.after? lines = some s' := by
  induction lines generalizing s with
  | nil => exact ⟨s, rfl⟩
  | cons line lines ih =>
    obtain ⟨hline, hlines⟩ := List.forall_mem_cons.1 h
    rw [after?]
    split
    next hnone => exact absurd (exitLine_of_feed hnone) hline
    next s₁ reply _ => exact ih hlines s₁

/-- A session without a line that ends it is a block that grows with each line that binds a name. -/
theorem grows_as_block {lines : List String}
    (h : ∀ line ∈ lines, trimLineEnd line.toList ≠ exitLine) :
    ∃ s, start.after? lines = some s ∧
      (∀ (p : Program) (run : Run) (span : Span),
        OneDeeper (p.evaluateIn ⟨s.answered, s.answered⟩ s.env defaultLimit)
          (Program.evaluateIn ⟨.letIn (start.bindings lines) p.expression span, []⟩ run []
            (defaultLimit + 1))) ∧
      ∀ line s' reply, s.BindsNothing line → s.feed line = some (s', reply) →
        ∀ later, s'.replies later = s.replies later := by
  obtain ⟨s, hafter⟩ := exists_after h start
  have hblock : InBlock ([] ++ start.bindings lines) s :=
    InBlock.after (fun program site => ⟨_, rfl, .nil⟩) hafter
  have hself : s.BoundAlike s := BoundAlike.after .nil hafter
  refine ⟨s, hafter, hblock.oneDeeper, fun line s' reply hline hfeed later => ?_⟩
  have halike : s'.BoundAlike s := by
    rw [BoundAlike, env_of_bindsNothing hline hfeed]
    exact hself
  exact halike.replies_eq later

/-- The session after a line that binds a number. -/
def afterNumber : Session :=
  ⟨[⟨[0], "n", .int 2⟩], 1⟩

set_option maxRecDepth 8000 in
/-- The session of one line is a block of one binding, and a line that asks the number for a field
leaves it so. -/
theorem grows_as_block_number :
    (∀ line ∈ ["n = 2"], trimLineEnd line.toList ≠ exitLine) ∧
      start.bindings ["n = 2"] = [⟨.of "n", .int 2 ⟨1, 2⟩⟩] ∧
      start.after? ["n = 2"] = some afterNumber ∧
      OneDeeper
        (Program.evaluateIn ⟨.name ⟨"n", ⟨0, 1⟩⟩, []⟩ ⟨1, 1⟩ afterNumber.env defaultLimit)
        (Program.evaluateIn ⟨.letIn [⟨.of "n", .int 2 ⟨1, 2⟩⟩] (.name ⟨"n", ⟨0, 1⟩⟩) ⟨0, 1⟩, []⟩
          ⟨0, 0⟩ [] (defaultLimit + 1)) ∧
      afterNumber.BindsNothing "n.k" ∧
      ∃ s reply, afterNumber.feed "n.k" = some (s, reply) ∧
        ∀ later, s.replies later = afterNumber.replies later := by
  have hlines : ∀ line ∈ ["n = 2"], trimLineEnd line.toList ≠ exitLine := by decide
  have hsource : lineSource "n = 2" = " 2" := by cbv
  have hname : lineName? "n = 2" = some "n" := by cbv
  have hparse : Program.parse " 2" = .ok ⟨.int 2 ⟨1, 2⟩, []⟩ := by cbv
  have hvalue : start.evaluate " 2" = .ok (.int 2) := by cbv
  rw [← hsource] at hparse hvalue
  have hbinds : Asks "n = 2" := ⟨by decide, by decide, by decide⟩
  have hfeed : start.feed "n = 2" = some (afterNumber, .silent) := hbinds.feed_of_ok hvalue hname
  have hafter : start.after? ["n = 2"] = some afterNumber := by rw [after?, hfeed]; rfl
  have hbindings : start.bindings ["n = 2"] = [⟨.of "n", .int 2 ⟨1, 2⟩⟩] := by
    simp [bindings, hfeed, binding?, hname, hparse, hvalue]
  have hfield : lineSource "n.k" = "n.k" := by cbv
  have herror : afterNumber.evaluate "n.k" =
      .error (.eval "<repl>" "n.k" ⟨.noMethod "k" .number, ⟨2, 3⟩⟩) := by cbv
  have hasks : Asks "n.k" := ⟨by decide, by decide, by decide⟩
  rw [← hfield] at herror
  have hidle : afterNumber.BindsNothing "n.k" := .inr (.inr (.inr ⟨_, herror⟩))
  obtain ⟨s, hs, hblock, hlater⟩ := grows_as_block hlines
  cases hs.symm.trans hafter
  rw [hbindings] at hblock
  exact ⟨hlines, hbindings, hafter, hblock _ ⟨0, 0⟩ ⟨0, 1⟩, hidle, _, _,
    hasks.feed_of_error herror, hlater _ _ _ hidle (hasks.feed_of_error herror)⟩

end Session

end ConfigExpr
