import ConfigExpr.Proofs.Steps

/-!
# What decides a parse

A rule reads tokens up to the one it stops at, with a value or with an error, and what it gives is
decided by these tokens: it is the same whatever stands after them (`Decided`). An error is at the
token that the rule stops at, unless a parameter is repeated. The rules for single tokens are
decided, and a rule that goes on with another one is decided where both are (`Decided.andThen`).
-/

namespace ConfigExpr

/-- A rule: a value with the tokens left, or a failure. -/
abbrev Rule (α : Type) : Type :=
  List Spanned → Except Failure (α × List Spanned)

namespace Rule

variable {α β : Type}

/-- Takes nothing. -/
def give (value : α) : Rule α :=
  fun ts => .ok (value, ts)

/-- The second rule goes on where the first one ends. -/
def andThen (p : Rule α) (q : α → Rule β) : Rule β := fun ts =>
  match p ts with
  | .ok (value, left) => q value left
  | .error f => .error f

variable {p : Rule α} {q : α → Rule β} {ts left : List Spanned} {value : α} {f : Failure}

theorem andThen_ok (h : p ts = .ok (value, left)) : p.andThen q ts = q value left := by
  rw [andThen, h]

theorem andThen_error (h : p ts = .error f) : p.andThen q ts = .error f := by
  rw [andThen, h]

end Rule

namespace Outcome

variable {α β : Type} {m n : Nat}

/-- An outcome without the bound that it carries. -/
def result : Outcome α n → Except Failure (α × List Spanned)
  | .ok value rest _ => .ok (value, rest)
  | .error f => .error f

theorem result_weaken (h : m < n) (o : Outcome α m) : (o.weaken h).result = o.result := by
  cases o <;> rfl

theorem lighter_of_result {o : Outcome α n} {value : α} {rest : List Spanned}
    (h : o.result = .ok (value, rest)) : Spanned.weightAll rest < n := by
  cases o with
  | ok value rest lighter =>
    cases h
    exact lighter
  | error f => cases h

theorem result_map (k : α → β) {o : Outcome α n} {p : Rule α} {ts : List Spanned}
    (h : o.result = p ts) : (o.map k).result = p.andThen (fun value => .give (k value)) ts := by
  rw [Rule.andThen, ← h]
  cases o <;> rfl

end Outcome

theorem Failure.unexpected_eq_stop (t : Spanned) (expected : List Expected) :
    ∃ fault, ∀ us, Failure.unexpected t us expected = .stop fault t.span (t :: us) := by
  unfold Failure.unexpected
  split <;> exact ⟨_, fun _ => rfl⟩

/-- The error is that of the token, or of code in it; or it is at a parameter before it. -/
inductive ParseError.At (e : ParseError) (t : Spanned) : Prop where
  | token : e.span = t.span → At e t
  | code {parts : List StringPart} : t.token = .string parts → Segment.parseAll parts = .error e →
    At e t
  | repeated {name : String} : e.fault = .duplicateParameter name → At e t

/-- What the rule reads from the tokens is decided by those up to the one it stops at. -/
inductive Decided {α : Type} (p : Rule α) (ts : List Spanned) : Prop where
  | ok {value : α} {taken left : List Spanned} : p ts = .ok (value, left) → ts = taken ++ left →
    (∀ l rest, left = l :: rest → ∀ us, p (taken ++ l :: us) = .ok (value, l :: us)) →
    Decided p ts
  | error {f : Failure} {taken : List Spanned} : p ts = .error f → ts = taken ++ f.rest →
    (∀ l rest, f.rest = l :: rest →
      f.error.At l ∧ ∀ us, ∃ f', p (taken ++ l :: us) = .error f' ∧ f'.error = f.error) →
    Decided p ts

namespace Decided

variable {α β : Type} {p p' : Rule α} {q : α → Rule β} {ts : List Spanned} {t : Spanned}

theorem andThen (hp : Decided p ts)
    (hq : ∀ value left, p ts = .ok (value, left) → Decided (q value) left) :
    Decided (p.andThen q) ts := by
  cases hp with
  | @error f taken hf hts hstop =>
    refine .error (Rule.andThen_error hf) hts fun l rest hrest => ?_
    obtain ⟨hat, hus⟩ := hstop l rest hrest
    refine ⟨hat, fun us => ?_⟩
    obtain ⟨f', hf', herror⟩ := hus us
    exact ⟨f', Rule.andThen_error hf', herror⟩
  | @ok value taken left hvalue hts hstop =>
    -- The first rule reads the same where the second stops later.
    have hthrough : ∀ more m rest us, left = more ++ m :: rest →
        p.andThen q (taken ++ more ++ m :: us) = q value (more ++ m :: us) := by
      intro more m rest us hleft
      refine Rule.andThen_ok ?_
      cases more with
      | nil => simpa using hstop m rest hleft us
      | cons l more => simpa using hstop l _ hleft (more ++ m :: us)
    cases hq value left hvalue with
    | @ok value' taken' left' hvalue' hleft hstop' =>
      refine .ok ((Rule.andThen_ok hvalue).trans hvalue') (by rw [hts, hleft, List.append_assoc])
        fun m rest hm us => ?_
      rw [hthrough taken' m rest us (hm ▸ hleft)]
      exact hstop' m rest hm us
    | @error f taken' hf hleft hstop' =>
      refine .error ((Rule.andThen_ok hvalue).trans hf) (by rw [hts, hleft, List.append_assoc])
        fun m rest hm => ?_
      refine ⟨(hstop' m rest hm).1, fun us => ?_⟩
      rw [hthrough taken' m rest us (hm ▸ hleft)]
      exact (hstop' m rest hm).2 us

theorem give (value : α) (ts : List Spanned) : Decided (.give value) ts :=
  .ok rfl (List.nil_append ts).symm fun _ _ _ _ => rfl

theorem map {k : α → β} (hp : Decided p ts) :
    Decided (p.andThen fun value => .give (k value)) ts :=
  hp.andThen fun value left _ => .give (k value) left

/-- The first token is taken, and the rule goes on after it. -/
theorem take (h : ∀ us, p (t :: us) = p' us) (hp : Decided p' ts) : Decided p (t :: ts) := by
  cases hp with
  | @ok value taken left hok hts hstop =>
    have hcons : t :: ts = (t :: taken) ++ left := congrArg (t :: ·) hts
    exact .ok ((h ts).trans hok) hcons fun l rest hl us => (h _).trans (hstop l rest hl us)
  | @error f taken hfail hts hstop =>
    have hcons : t :: ts = (t :: taken) ++ f.rest := congrArg (t :: ·) hts
    refine .error ((h ts).trans hfail) hcons fun l rest hl => ⟨(hstop l rest hl).1, fun us => ?_⟩
    rw [List.cons_append, h]
    exact (hstop l rest hl).2 us

/-- The rule ends after the first token. -/
theorem single {value : α} (h : ∀ us, p (t :: us) = .ok (value, us)) : Decided p (t :: ts) :=
  take h (.give value ts)

/-- Two rules that agree on tokens with the same first one. -/
theorem congr (h : ∀ us, p (t :: us) = p' (t :: us)) (hp : Decided p' (t :: ts)) :
    Decided p (t :: ts) := by
  have hagree : ∀ taken l rest us, t :: ts = taken ++ l :: rest →
      p (taken ++ l :: us) = p' (taken ++ l :: us) := by
    intro taken l rest us hts
    cases taken with
    | nil =>
      cases hts
      exact h us
    | cons u taken =>
      cases hts
      exact h _
  cases hp with
  | @ok value taken left hok hts hstop =>
    refine .ok ((h ts).trans hok) hts fun l rest hl us => ?_
    rw [hagree taken l rest us (hl ▸ hts)]
    exact hstop l rest hl us
  | @error f taken hfail hts hstop =>
    refine .error ((h ts).trans hfail) hts fun l rest hl => ⟨(hstop l rest hl).1, fun us => ?_⟩
    rw [hagree taken l rest us (hl ▸ hts)]
    exact (hstop l rest hl).2 us

/-- The first token is left. -/
theorem leave {value : α} (h : ∀ us, p (t :: us) = .ok (value, t :: us)) : Decided p (t :: ts) :=
  congr h (.give value (t :: ts))

/-- The rule fails at the first token. -/
theorem stop {e : ParseError} (he : e.At t)
    (h : ∀ us, ∃ f, p (t :: us) = .error f ∧ f.error = e ∧ f.rest = t :: us) :
    Decided p (t :: ts) := by
  obtain ⟨f, hf, rfl, hrest⟩ := h ts
  refine .error hf (hrest.symm.trans (List.nil_append _).symm) fun l rest hl => ?_
  cases hrest.symm.trans hl
  refine ⟨he, fun us => ?_⟩
  obtain ⟨f', hf', herror, -⟩ := h us
  exact ⟨f', hf', herror⟩

theorem unexpected {expected : List Expected}
    (h : ∀ us, p (t :: us) = .error (.unexpected t us expected)) : Decided p (t :: ts) := by
  obtain ⟨fault, hfault⟩ := Failure.unexpected_eq_stop t expected
  exact stop (.token rfl) fun us => ⟨_, (h us).trans (congrArg _ (hfault us)), rfl, rfl⟩

/-- No token is left. -/
theorem exhausted (h : p ts = .error .exhausted) : Decided p ts :=
  .error h (List.append_nil ts).symm nofun

theorem ended {value : α} (h : p [] = .ok (value, [])) : Decided p [] :=
  .ok h (List.nil_append []).symm nofun

end Decided

/-! ## Single tokens -/

def markRule (m : Mark) : Rule Span :=
  fun ts => (expectMark m ts).result

def keywordRule (w : Keyword) : Rule Span :=
  fun ts => (expectKeyword w ts).result

def eofRule : Rule Span :=
  fun ts => (expectEof ts).result

def nameRule : Rule Name :=
  fun ts => (expectName ts).result

def parametersRule : Rule (List Name) :=
  fun ts => (parameters ts).result

theorem decided_markRule (m : Mark) (ts : List Spanned) : Decided (markRule m) ts := by
  cases ts with
  | nil => exact .exhausted rfl
  | cons t ts =>
    by_cases hm : t.token.isMark m = true
    · exact .single fun _ => congrArg Outcome.result (if_pos hm)
    · exact .unexpected fun _ => congrArg Outcome.result (if_neg hm)

theorem decided_keywordRule (w : Keyword) (ts : List Spanned) : Decided (keywordRule w) ts := by
  cases ts with
  | nil => exact .exhausted rfl
  | cons t ts =>
    by_cases hw : t.token.isKeyword w = true
    · exact .single fun _ => congrArg Outcome.result (if_pos hw)
    · exact .unexpected fun _ => congrArg Outcome.result (if_neg hw)

theorem decided_eofRule (ts : List Spanned) : Decided eofRule ts := by
  cases ts with
  | nil => exact .exhausted rfl
  | cons t ts =>
    by_cases heof : t.token.isEof = true
    · exact .single fun _ => congrArg Outcome.result (if_pos heof)
    · exact .unexpected fun _ => congrArg Outcome.result (if_neg heof)

theorem decided_nameRule (ts : List Spanned) : Decided nameRule ts := by
  cases ts with
  | nil => exact .exhausted rfl
  | cons t ts =>
    obtain ⟨token, span⟩ := t
    cases token with
    | ident text => exact .single fun _ => rfl
    | _ => exact .stop (.token rfl) fun _ => ⟨_, rfl, rfl, rfl⟩

/-- Parameters after the first one. -/
def parametersAfter (name : Name) : Rule (List Name)
  | [] => .error .exhausted
  | t :: ts =>
    if t.token.isMark .comma then parametersRule.andThen (fun names => .give (name :: names)) ts
    else if t.token.isMark .closeParen then .ok ([name], ts)
    else .error (.unexpected t ts [.mark .closeParen])

theorem parametersRule_eq : parametersRule = nameRule.andThen parametersAfter := by
  funext ts
  rw [parametersRule, parameters, Rule.andThen, nameRule]
  cases expectName ts with
  | error f => rfl
  | ok name left lighter =>
    cases left with
    | nil => rfl
    | cons t left =>
      dsimp only
      rw [apply_ite Outcome.result, apply_ite Outcome.result, Outcome.result_weaken,
        Outcome.result_map _ (rfl : _ = parametersRule left)]
      rfl

theorem decided_parametersAfter : ∀ (name : Name) (ts : List Spanned),
    Decided (parametersAfter name) ts
  | _, [] => .exhausted rfl
  | name, t :: ts => by
    by_cases hcomma : t.token.isMark .comma = true
    · refine .take (fun _ => if_pos hcomma) (.map ?_)
      rw [parametersRule_eq]
      refine (decided_nameRule ts).andThen fun next left hnext => ?_
      have := Nat.lt_trans (Outcome.lighter_of_result hnext) (t.weightAll_lt_cons ts)
      exact decided_parametersAfter next left
    · by_cases hclose : t.token.isMark .closeParen = true
      · exact .single fun _ => (if_neg hcomma).trans (if_pos hclose)
      · exact .unexpected fun _ => (if_neg hcomma).trans (if_neg hclose)
termination_by _ ts => Spanned.weightAll ts

theorem decided_parametersRule (ts : List Spanned) : Decided parametersRule ts := by
  rw [parametersRule_eq]
  exact (decided_nameRule ts).andThen fun name left _ => decided_parametersAfter name left

end ConfigExpr
