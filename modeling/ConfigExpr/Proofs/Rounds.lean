import ConfigExpr.Proofs.Advances
import ConfigExpr.Proofs.DecidedParse

/-!
# The rounds of the loops

A rule that reads any number of parts is a loop: the items of a sequence, the bindings of a let
block, the parameters of a lambda, the entries of a map and the operators after a form. A round
reads one part, and ends the loop or goes on to another round. One that goes on has taken two tokens
or more, so a loop has no more rounds than there are tokens for it (`Rule.loop_eq`).
-/

namespace ConfigExpr

/-! ## Tokens taken -/

-- What holds of every token holds of those within strings too.
mutual

theorem Spanned.everywhere {p : Spanned → Prop} (h : ∀ t, p t) : ∀ t : Spanned, t.Everywhere p
  | ⟨.string parts, _⟩ => .intro (h _) (StringPart.everywhere h parts)
  | ⟨.ident _, _⟩ | ⟨.int _, _⟩ | ⟨.float _, _⟩ | ⟨.comment, _⟩ | ⟨.keyword _, _⟩ | ⟨.mark _, _⟩
  | ⟨.eof, _⟩ => .intro (h _) (List.forall_mem_nil _)

theorem StringPart.everywhere {p : Spanned → Prop} (h : ∀ t, p t) : ∀ parts : List StringPart,
    ∀ t ∈ parts.flatMap StringPart.tokens, t.Everywhere p
  | [] => List.forall_mem_nil _
  | .text _ :: parts => StringPart.everywhere h parts
  | .code tokens :: parts =>
    List.forall_mem_append.2 ⟨Spanned.everywhereAll h tokens, StringPart.everywhere h parts⟩

theorem Spanned.everywhereAll {p : Spanned → Prop} (h : ∀ t, p t) : ∀ ts : List Spanned,
    ∀ t ∈ ts, t.Everywhere p
  | [] => List.forall_mem_nil _
  | t :: ts => List.forall_mem_cons.2 ⟨Spanned.everywhere h t, Spanned.everywhereAll h ts⟩

end

/-- All tokens, and all errors. -/
def Reports.all : Reports where
  holds _ := True
  allows _ := True
  token _ _ _ := trivial
  code _ _ _ := .inr fun _ => trivial

theorem Reports.holds_all (ts : List Spanned) : all.Holds ts :=
  Spanned.everywhereAll (fun _ => trivial) ts

theorem Spanned.Leaves.length_lt {ts rest : List Spanned} (h : Leaves ts rest)
    (lighter : weightAll rest < weightAll ts) : rest.length < ts.length := by
  obtain ⟨taken, rfl, -⟩ := h
  cases taken with
  | nil => exact absurd lighter (Nat.lt_irrefl _)
  | cons t taken =>
    rw [List.length_append, List.length_cons]
    omega

namespace Outcome.Advances

variable {α : Type} {ts rest : List Spanned} {R : Reports} {P : α → Prop} {value : α}
  {o : Outcome α (Spanned.weightAll ts)}

/-- A rule that succeeds has taken a token. -/
theorem length_lt (h : o.Advances R ts P) (hresult : o.result = .ok (value, rest)) :
    rest.length < ts.length := by
  have lighter := lighter_of_result hresult
  cases h with
  | ok _ hleaves =>
    cases hresult
    exact hleaves.length_lt lighter
  | error _ => cases hresult

end Outcome.Advances

section

variable {ts rest : List Spanned}

theorem length_lt_of_exprRule {e : Expr} (h : exprRule ts = .ok (e, rest)) :
    rest.length < ts.length :=
  (Expr.parse_advances ts (Reports.holds_all ts)).length_lt h

theorem length_lt_of_sequenceRule {close : Mark} {r : List Expr × Nat}
    (h : sequenceRule close ts = .ok (r, rest)) : rest.length < ts.length :=
  (advances_parseSequence (fun _ => Expr.parse_advances _) close (Nat.lt_succ_self _)
    (Reports.holds_all ts)).length_lt h

theorem length_lt_of_nameRule {name : Name} (h : nameRule ts = .ok (name, rest)) :
    rest.length < ts.length :=
  (advances_expectName (Reports.holds_all ts)).length_lt h

theorem length_lt_of_markRule {m : Mark} {s : Span} (h : markRule m ts = .ok (s, rest)) :
    rest.length < ts.length :=
  (advances_expectMark m (Reports.holds_all ts)).length_lt h

end

/-! ## Loops -/

/-- How a round ends: the loop goes on from a state, or it has a value. -/
inductive Round (σ α : Type) where
  | again (state : σ)
  | done (value : α)

namespace Rule

variable {σ α β : Type}

theorem andThen_eq_ok_iff {p : Rule α} {q : α → Rule β} {ts left : List Spanned} {value : β} :
    p.andThen q ts = .ok (value, left) ↔
      ∃ first mid, p ts = .ok (first, mid) ∧ q first mid = .ok (value, left) := by
  rw [andThen]
  cases p ts with
  | ok r =>
    obtain ⟨first, mid⟩ := r
    simp [and_assoc]
  | error f => simp

theorem andThen_congr {p p' : Rule α} {q : α → Rule β} {ts us : List Spanned} (h : p ts = p' us) :
    p.andThen q ts = p'.andThen q us := by
  rw [andThen, h]
  rfl

@[simp] theorem andThen_andThen {γ : Type} (p : Rule α) (q : α → Rule β) (r : β → Rule γ) :
    (p.andThen q).andThen r = p.andThen fun value => (q value).andThen r := by
  funext ts
  simp only [andThen]
  cases p ts <;> rfl

@[simp] theorem give_andThen (value : α) (q : α → Rule β) : (give value).andThen q = q value := rfl

@[simp] theorem andThen_give (p : Rule α) : p.andThen give = p := by
  funext ts
  rw [andThen]
  cases p ts <;> rfl

/-- The parts that a rule reads, after those read before. -/
def after (rule : Rule (List α)) (parts : List α) : Rule (List α) :=
  rule.andThen fun others => give (parts ++ others)

/-- The same for parts up to a closing mark, with the place where that mark stops. -/
def afterClosed (rule : Rule (List α × Nat)) (parts : List α) : Rule (List α × Nat) :=
  rule.andThen fun r => give (parts ++ r.1, r.2)

theorem andThen_after (p : Rule β) (q : β → Rule (List α)) (parts : List α) :
    (p.andThen q).after parts = p.andThen fun value => (q value).after parts :=
  andThen_andThen _ _ _

theorem andThen_afterClosed (p : Rule β) (q : β → Rule (List α × Nat)) (parts : List α) :
    (p.andThen q).afterClosed parts = p.andThen fun value => (q value).afterClosed parts :=
  andThen_andThen _ _ _

theorem after_nil (rule : Rule (List α)) : rule.after [] = rule :=
  andThen_give _

theorem afterClosed_nil (rule : Rule (List α × Nat)) : rule.afterClosed [] = rule :=
  andThen_give _

/-- What a loop goes on with, if `rest` is the loop from a state. -/
def goOn (rest : σ → Rule α) : Round σ α → Rule α
  | .again state => rest state
  | .done value => .give value

@[simp] theorem goOn_again (rest : σ → Rule α) (state : σ) :
    goOn rest (.again state) = rest state := rfl

@[simp] theorem goOn_done (rest : σ → Rule α) (value : α) : goOn rest (.done value) = give value :=
  rfl

/-- What a loop with this round reads, unless it takes more than `n` rounds after the first one. -/
def loop (round : σ → Rule (Round σ α)) (n : Nat) (state : σ) (ts : List Spanned) :
    Option (Except Failure (α × List Spanned)) :=
  match round state ts with
  | .error f => some (.error f)
  | .ok (.done value, left) => some (.ok (value, left))
  | .ok (.again next, left) =>
    match n with
    | 0 => none
    | n + 1 => loop round n next left

/-- A rule that does a round, and then the same from the state after it, is the loop. Each round
that goes on takes `k` tokens or more. -/
theorem loop_eq {k : Nat} {round : σ → Rule (Round σ α)} {rule : σ → Rule α}
    (hrule : ∀ state, rule state = (round state).andThen (goOn rule))
    (hround : ∀ {state ts next left}, round state ts = .ok (.again next, left) →
      left.length + k ≤ ts.length) :
    ∀ (n : Nat) (state : σ) (ts : List Spanned), ts.length < k * (n + 1) →
      loop round n state ts = some (rule state ts)
  | n, state, ts, hn => by
    rw [loop.eq_def, hrule, andThen]
    cases h : round state ts with
    | error f => rfl
    | ok r =>
      obtain ⟨next | value, left⟩ := r
      case done => rfl
      -- What is left is shorter by the tokens of a round, so one round less is enough for it.
      have hleft := hround h
      rw [Nat.mul_succ] at hn
      cases n with
      | zero => omega
      | succ n => exact loop_eq hrule hround n next left (by omega)

/-- Where each round that goes on takes two tokens or more, there are no more rounds than tokens. -/
theorem loop_within {round : σ → Rule (Round σ α)} {rule : σ → Rule α}
    (hrule : ∀ state, rule state = (round state).andThen (goOn rule))
    (hround : ∀ {state ts next left}, round state ts = .ok (.again next, left) →
      left.length + 2 ≤ ts.length) (state : σ) (ts : List Spanned) :
    loop round (ts.length - 1) state ts = some (rule state ts) :=
  loop_eq hrule hround _ state ts (by omega)

end Rule

open Rule

/-! ## The loops of the grammar -/

/-- What follows one more item of a sequence. -/
def itemRound (close : Mark) (items : List Expr) (item : Expr) :
    Rule (Round (List Expr) (List Expr × Nat))
  | [] => .error .exhausted
  | u :: left =>
    if u.token.isMark .comma then .ok (.again (items ++ [item]), left)
    else if u.token.isMark close then .ok (.done (items ++ [item], u.span.stop), left)
    else .error (.unexpected u left [.mark .comma, .mark close])

/-- A round of a sequence, after the items read so far: the closing mark, or one more item with the
mark after it. -/
def sequenceRound (close : Mark) (items : List Expr) : Rule (Round (List Expr) (List Expr × Nat))
  | [] => .error .exhausted
  | t :: ts =>
    if t.token.isMark close then .ok (.done (items, t.span.stop), ts)
    else exprRule.andThen (itemRound close items) (t :: ts)

/-- A round of the bindings of a let block: one more, or the end where no name follows. -/
def bindingsRound (bindings : List Binding) : Rule (Round (List Binding) (List Binding))
  | [] => .ok (.done bindings, [])
  | t :: ts =>
    match t.token with
    | .ident text =>
      (markRule .equals).andThen (fun _ => exprRule.andThen fun value =>
        .give (.again (bindings ++ [⟨⟨text, t.span⟩, value⟩]))) ts
    | _ => .ok (.done bindings, t :: ts)

/-- What follows one more parameter. -/
def parameterRound (names : List Name) (name : Name) : Rule (Round (List Name) (List Name))
  | [] => .error .exhausted
  | t :: ts =>
    if t.token.isMark .comma then .ok (.again (names ++ [name]), ts)
    else if t.token.isMark .closeParen then .ok (.done (names ++ [name]), ts)
    else .error (.unexpected t ts [.mark .closeParen])

/-- A round of a parameter list: one more name with the mark after it. -/
def parametersRound (names : List Name) : Rule (Round (List Name) (List Name)) :=
  nameRule.andThen (parameterRound names)

/-- Passes over a comma, if there is one. -/
def commaRule : Rule Unit :=
  fun ts => .ok ((), skipComma ts)

/-- A round of a map: the closing brace, or one more entry, whose comma may be left out. -/
def entriesRound (entries : List Entry) : Rule (Round (List Entry) (List Entry × Nat))
  | [] => .error .exhausted
  | t :: ts =>
    if t.token.isMark .closeBrace then .ok (.done (entries, t.span.stop), ts)
    else
      match Name.parseKey t ts with
      | .error f => .error f
      | .ok key =>
        (markRule .colon).andThen (fun _ => exprRule.andThen fun value => commaRule.andThen fun _ =>
          .give (.again (entries ++ [⟨key, value⟩]))) ts

/-- What follows the name of a member: the arguments of a method, if a parenthesis opens. -/
def memberRound (e : Expr) (name : Name) : Rule (Round Expr Expr)
  | [] => .ok (.again (.member e name ⟨e.span.start, name.span.stop⟩), [])
  | u :: left =>
    if u.token.isMark .openParen then
      (sequenceRule .closeParen).andThen
        (fun r => .give (.again (.method e name r.1 ⟨e.span.start, r.2⟩))) left
    else .ok (.again (.member e name ⟨e.span.start, name.span.stop⟩), u :: left)

/-- A round of the operators after a form: one more, or the end where none follows. -/
def postfixRound (e : Expr) : Rule (Round Expr Expr)
  | [] => .ok (.done e, [])
  | t :: ts =>
    match t.token with
    | .mark .dot => nameRule.andThen (memberRound e) ts
    | .mark .openBracket =>
      exprRule.andThen (fun key => (markRule .closeBracket).andThen fun close =>
        .give (.again (.index e key ⟨e.span.start, close.stop⟩))) ts
    | .mark .openParen =>
      (sequenceRule .closeParen).andThen
        (fun r => .give (.again (.apply e r.1 ⟨e.span.start, r.2⟩))) ts
    | _ => .ok (.done e, t :: ts)

section

variable {ts left : List Spanned}

theorem sequenceAfter_afterClosed (close : Mark) (items : List Expr) (item : Expr) :
    (sequenceAfter close item).afterClosed items =
      (itemRound close items item).andThen (goOn (sequenceRule close).afterClosed) := by
  funext ts
  cases ts with
  | nil => rfl
  | cons u left =>
    rw [afterClosed, andThen, andThen, sequenceAfter, itemRound]
    by_cases hcomma : u.token.isMark .comma = true
    · rw [if_pos hcomma, if_pos hcomma]
      dsimp only [goOn]
      rw [afterClosed, ← andThen, andThen_andThen]
      simp
    · rw [if_neg hcomma, if_neg hcomma]
      by_cases hclose : u.token.isMark close = true
      · rw [if_pos hclose, if_pos hclose]
        rfl
      · rw [if_neg hclose, if_neg hclose]

theorem sequenceRule_afterClosed (close : Mark) (items : List Expr) :
    (sequenceRule close).afterClosed items =
      (sequenceRound close items).andThen (goOn (sequenceRule close).afterClosed) := by
  funext ts
  cases ts with
  | nil =>
    rw [afterClosed, andThen, sequenceRule, Expr.parseSequence]
    rfl
  | cons t ts =>
    by_cases hclose : t.token.isMark close = true
    · have hround : sequenceRound close items (t :: ts) = .ok (.done (items, t.span.stop), ts) :=
        if_pos hclose
      rw [afterClosed, andThen_ok ((sequenceRule_cons close).trans (if_pos hclose)),
        andThen_ok hround]
      simp
    · have hround : sequenceRound close items (t :: ts) =
          exprRule.andThen (itemRound close items) (t :: ts) := if_neg hclose
      have hrule : (sequenceRule close).afterClosed items (t :: ts) =
          (exprRule.andThen (sequenceAfter close)).afterClosed items (t :: ts) :=
        andThen_congr ((sequenceRule_cons close).trans (if_neg hclose))
      rw [hrule, andThen_congr hround, andThen_afterClosed, andThen_andThen]
      simp only [sequenceAfter_afterClosed]

theorem length_of_sequenceRound {close : Mark} {items next : List Expr}
    (h : sequenceRound close items ts = .ok (.again next, left)) : left.length + 2 ≤ ts.length := by
  cases ts with
  | nil => cases h
  | cons t ts =>
    rw [sequenceRound] at h
    split at h
    · cases h
    obtain ⟨item, mid, hitem, h⟩ := andThen_eq_ok_iff.1 h
    have hmid := length_lt_of_exprRule hitem
    cases mid with
    | nil => cases h
    | cons u mid =>
      rw [itemRound] at h
      split at h
      · cases h
        exact hmid
      · split at h <;> cases h

theorem loop_sequenceRound (close : Mark) (ts : List Spanned) :
    loop (sequenceRound close) (ts.length - 1) [] ts = some (sequenceRule close ts) := by
  rw [loop_within (sequenceRule_afterClosed close) length_of_sequenceRound, afterClosed_nil]

theorem bindingsRule_after (bindings : List Binding) :
    bindingsRule.after bindings = (bindingsRound bindings).andThen (goOn bindingsRule.after) := by
  funext ts
  cases ts with
  | nil =>
    rw [after, andThen, bindingsRule, Binding.parseAll]
    simp [Outcome.result, give, bindingsRound, andThen]
  | cons t ts =>
    by_cases ht : ∃ text, t.token = .ident text
    · obtain ⟨text, ht⟩ := ht
      have hround : bindingsRound bindings (t :: ts) =
          (markRule .equals).andThen (fun _ => exprRule.andThen fun value =>
            .give (.again (bindings ++ [⟨⟨text, t.span⟩, value⟩]))) ts := by
        rw [bindingsRound, ht]
      rw [after, andThen_congr (bindingsRule_ident ht), andThen_congr hround]
      simp [after]
    · have ht := not_exists.1 ht
      have hround : bindingsRound bindings (t :: ts) = .ok (.done bindings, t :: ts) := by
        rw [bindingsRound]
        split
        next text h => exact absurd h (ht text)
        next => rfl
      rw [after, andThen_ok (bindingsRule_other ht), andThen_ok hround]
      simp

theorem length_of_bindingsRound {bindings next : List Binding}
    (h : bindingsRound bindings ts = .ok (.again next, left)) : left.length + 2 ≤ ts.length := by
  cases ts with
  | nil => cases h
  | cons t ts =>
    rw [bindingsRound] at h
    split at h
    · obtain ⟨_, afterEquals, hequals, h⟩ := andThen_eq_ok_iff.1 h
      obtain ⟨value, afterValue, hvalue, h⟩ := andThen_eq_ok_iff.1 h
      cases h
      have := length_lt_of_markRule hequals
      have := length_lt_of_exprRule hvalue
      simp only [List.length_cons]
      omega
    · cases h

theorem loop_bindingsRound (ts : List Spanned) :
    loop bindingsRound (ts.length - 1) [] ts = some (bindingsRule ts) := by
  rw [loop_within bindingsRule_after length_of_bindingsRound, after_nil]

theorem parametersAfter_after (names : List Name) (name : Name) :
    (parametersAfter name).after names =
      (parameterRound names name).andThen (goOn parametersRule.after) := by
  funext ts
  cases ts with
  | nil => rfl
  | cons t ts =>
    rw [after, andThen, andThen, parametersAfter, parameterRound]
    by_cases hcomma : t.token.isMark .comma = true
    · rw [if_pos hcomma, if_pos hcomma]
      dsimp only [goOn]
      rw [after, ← andThen, andThen_andThen]
      simp
    · rw [if_neg hcomma, if_neg hcomma]
      by_cases hclose : t.token.isMark .closeParen = true
      · rw [if_pos hclose, if_pos hclose]
        rfl
      · rw [if_neg hclose, if_neg hclose]

theorem parametersRule_after (names : List Name) :
    parametersRule.after names = (parametersRound names).andThen (goOn parametersRule.after) := by
  conv_lhs => rw [parametersRule_eq, andThen_after]
  rw [parametersRound, andThen_andThen]
  simp only [parametersAfter_after]

theorem length_of_parametersRound {names next : List Name}
    (h : parametersRound names ts = .ok (.again next, left)) : left.length + 2 ≤ ts.length := by
  obtain ⟨name, mid, hname, h⟩ := andThen_eq_ok_iff.1 h
  have hmid := length_lt_of_nameRule hname
  cases mid with
  | nil => cases h
  | cons t mid =>
    rw [parameterRound] at h
    split at h
    · cases h
      exact hmid
    · split at h <;> cases h

theorem loop_parametersRound (ts : List Spanned) :
    loop parametersRound (ts.length - 1) [] ts = some (parametersRule ts) := by
  rw [loop_within parametersRule_after length_of_parametersRound, after_nil]

theorem entryAfter_eq (key : Name) :
    entryAfter key = (markRule .colon).andThen fun _ => exprRule.andThen fun value =>
      commaRule.andThen fun _ => entriesRule.andThen fun r =>
        .give (⟨key, value⟩ :: r.1, r.2) := rfl

theorem entriesRule_afterClosed (entries : List Entry) :
    entriesRule.afterClosed entries =
      (entriesRound entries).andThen (goOn entriesRule.afterClosed) := by
  funext ts
  cases ts with
  | nil =>
    rw [afterClosed, andThen_error entriesRule_nil]
    rfl
  | cons t ts =>
    by_cases hclose : t.token.isMark .closeBrace = true
    · have hround : entriesRound entries (t :: ts) = .ok (.done (entries, t.span.stop), ts) :=
        if_pos hclose
      rw [afterClosed, andThen_ok (entriesRule_close hclose), andThen_ok hround]
      simp
    · cases hkey : Name.parseKey t ts with
      | error f =>
        have hround : entriesRound entries (t :: ts) = .error f := by
          rw [entriesRound, if_neg hclose, hkey]
        rw [afterClosed, andThen_error (entriesRule_fails hclose hkey), andThen_error hround]
      | ok key =>
        have hround : entriesRound entries (t :: ts) =
            (markRule .colon).andThen (fun _ => exprRule.andThen fun value =>
              commaRule.andThen fun _ => .give (.again (entries ++ [⟨key, value⟩]))) ts := by
          rw [entriesRound, if_neg hclose, hkey]
        rw [afterClosed, andThen_congr (entriesRule_key hclose hkey), andThen_congr hround,
          entryAfter_eq]
        simp [afterClosed]

theorem length_skipComma_le (ts : List Spanned) : (skipComma ts).length ≤ ts.length := by
  cases ts with
  | nil => exact Nat.le_refl _
  | cons t ts =>
    rw [skipComma]
    split <;> simp

theorem length_of_entriesRound {entries next : List Entry}
    (h : entriesRound entries ts = .ok (.again next, left)) : left.length + 2 ≤ ts.length := by
  cases ts with
  | nil => cases h
  | cons t ts =>
    rw [entriesRound] at h
    split at h
    · cases h
    split at h
    · cases h
    obtain ⟨_, afterColon, hcolon, h⟩ := andThen_eq_ok_iff.1 h
    obtain ⟨value, afterValue, hvalue, h⟩ := andThen_eq_ok_iff.1 h
    obtain ⟨_, _, hcomma, h⟩ := andThen_eq_ok_iff.1 h
    cases hcomma
    cases h
    have := length_lt_of_markRule hcolon
    have := length_lt_of_exprRule hvalue
    have := length_skipComma_le afterValue
    simp only [List.length_cons]
    omega

theorem loop_entriesRound (ts : List Spanned) :
    loop entriesRound (ts.length - 1) [] ts = some (entriesRule ts) := by
  rw [loop_within entriesRule_afterClosed length_of_entriesRound, afterClosed_nil]

theorem nameAfter_eq (e : Expr) (name : Name) :
    nameAfter e name = (memberRound e name).andThen (goOn postfixRule) := by
  funext ts
  cases ts with
  | nil => rfl
  | cons u left =>
    rw [andThen, nameAfter, memberRound]
    by_cases hopen : u.token.isMark .openParen = true
    · rw [if_pos hopen, if_pos hopen, ← andThen, andThen_andThen]
      simp
    · rw [if_neg hopen, if_neg hopen]
      rfl

theorem postfixRule_eq (e : Expr) :
    postfixRule e = (postfixRound e).andThen (goOn postfixRule) := by
  funext ts
  cases ts with
  | nil => rw [postfixRule_nil, andThen_ok rfl, goOn_done, give]
  | cons t ts =>
    by_cases hdot : t.token = .mark .dot
    · have hround : postfixRound e (t :: ts) = nameRule.andThen (memberRound e) ts := by
        rw [postfixRound, hdot]
      rw [postfixRule_dot e hdot, andThen_congr hround, andThen_andThen,
        funext (nameAfter_eq e)]
    by_cases hbracket : t.token = .mark .openBracket
    · have hround : postfixRound e (t :: ts) =
          exprRule.andThen (fun key => (markRule .closeBracket).andThen fun close =>
            .give (.again (.index e key ⟨e.span.start, close.stop⟩))) ts := by
        rw [postfixRound, hbracket]
      rw [postfixRule_openBracket e hbracket, andThen_congr hround]
      simp
    by_cases hparen : t.token = .mark .openParen
    · have hround : postfixRound e (t :: ts) = (sequenceRule .closeParen).andThen
          (fun r => .give (.again (.apply e r.1 ⟨e.span.start, r.2⟩))) ts := by
        rw [postfixRound, hparen]
      rw [postfixRule_openParen e hparen, andThen_congr hround]
      simp
    · have hround : postfixRound e (t :: ts) = .ok (.done e, t :: ts) := by
        rw [postfixRound]
        split
        next h => exact absurd h hdot
        next h => exact absurd h hbracket
        next h => exact absurd h hparen
        next => rfl
      rw [postfixRule_other e hdot hbracket hparen, andThen_ok hround, goOn_done, give]

theorem length_of_postfixRound {e next : Expr}
    (h : postfixRound e ts = .ok (.again next, left)) : left.length + 2 ≤ ts.length := by
  cases ts with
  | nil => cases h
  | cons t ts =>
    rw [postfixRound] at h
    split at h
    · obtain ⟨name, afterName, hname, h⟩ := andThen_eq_ok_iff.1 h
      have hafter := length_lt_of_nameRule hname
      cases afterName with
      | nil =>
        cases h
        exact Nat.succ_lt_succ hafter
      | cons u afterName =>
        rw [memberRound] at h
        split at h
        · obtain ⟨_, _, harguments, h⟩ := andThen_eq_ok_iff.1 h
          cases h
          have := length_lt_of_sequenceRule harguments
          simp only [List.length_cons] at hafter ⊢
          omega
        · cases h
          exact Nat.succ_lt_succ hafter
    · obtain ⟨_, afterKey, hkey, h⟩ := andThen_eq_ok_iff.1 h
      obtain ⟨_, _, hclose, h⟩ := andThen_eq_ok_iff.1 h
      cases h
      have := length_lt_of_exprRule hkey
      have := length_lt_of_markRule hclose
      simp only [List.length_cons]
      omega
    · obtain ⟨_, _, harguments, h⟩ := andThen_eq_ok_iff.1 h
      cases h
      exact Nat.succ_lt_succ (length_lt_of_sequenceRule harguments)
    · cases h

theorem loop_postfixRound (e : Expr) (ts : List Spanned) :
    loop postfixRound (ts.length - 1) e ts = some (postfixRule e ts) :=
  loop_within postfixRule_eq length_of_postfixRound e ts

end

end ConfigExpr
