import ConfigExpr.Program.Basic
import ConfigExpr.Proofs.Rounds
import Mathlib.Logic.Function.Iterate

/-!
# The tokens in sight of a parser

A parser sees two tokens, the current one and the next. It steps from token to token and passes over
the comments in between, and a rule is given the tokens from the current one on. What is left of the
tokens only gets shorter, by tokens that are no end marks, and by one at least where a rule succeeds
(`Window.Reached.moves`).
-/

namespace ConfigExpr

open Program (withoutComments commentSpans)

/-- Where a parser stands in its tokens. -/
structure Window where
  current? : Option Spanned
  next? : Option Spanned
  /-- The tokens out of sight, with the comments among them. -/
  unread : List Spanned
  /-- The places of the comments passed over. -/
  comments : List Span

namespace Window

/-- The next token becomes the current one, and the first one out of sight that is no comment comes
into sight. -/
def step (w : Window) : Window where
  current? := w.next?
  next? := (w.unread.dropWhile (·.token.isComment)).head?
  unread := (w.unread.dropWhile (·.token.isComment)).tail
  comments := w.comments ++ (w.unread.takeWhile (·.token.isComment)).map (·.span)

/-- The current token is taken out, and no other one put in its place. -/
def take (w : Window) : Window :=
  { w with current? := none }

def start (ts : List Spanned) : Window :=
  (⟨none, none, ts, []⟩ : Window).step.step

/-- The tokens that are left, without the comments. -/
def left (w : Window) : List Spanned :=
  w.current?.toList ++ w.next?.toList ++ withoutComments w.unread

/-- The tokens that a rule is given: none where the current one is taken. -/
def tokens (w : Window) : List Spanned :=
  match w.current? with
  | none => []
  | some _ => w.left

/-- The places where a parser of these tokens comes to stand, by steps and by taking tokens out in
any order. No rule moves it otherwise (`RulesMove`). -/
inductive Reached (ts : List Spanned) : Window → Prop where
  | start : Reached ts (start ts)
  | step {w : Window} : Reached ts w → Reached ts w.step
  | take {w : Window} : Reached ts w → Reached ts w.take

variable {ts : List Spanned} {w : Window}

theorem withoutComments_eq (ts : List Spanned) :
    withoutComments ts = (ts.dropWhile (·.token.isComment)).head?.toList ++
      withoutComments (ts.dropWhile (·.token.isComment)).tail := by
  induction ts with
  | nil => rfl
  | cons t ts ih =>
    by_cases ht : t.token.isComment = true
    · simpa [withoutComments, ht] using ih
    · simp [withoutComments, ht]

theorem commentSpans_eq (ts : List Spanned) :
    commentSpans ts = (ts.takeWhile (·.token.isComment)).map (·.span) ++
      commentSpans (ts.dropWhile (·.token.isComment)).tail := by
  induction ts with
  | nil => rfl
  | cons t ts ih =>
    by_cases ht : t.token.isComment = true
    · simpa [commentSpans, ht] using ih
    · simp [commentSpans, ht]

theorem left_step (w : Window) : w.step.left = w.next?.toList ++ withoutComments w.unread := by
  rw [left, List.append_assoc, withoutComments_eq w.unread]
  rfl

theorem left_take (w : Window) : w.take.left = w.step.left := by
  rw [left_step]
  rfl

theorem left_eq (w : Window) : w.left = w.current?.toList ++ w.step.left := by
  rw [left_step, left, List.append_assoc]

theorem left_step_of_none (h : w.current? = none) : w.step.left = w.left := by
  rw [left_eq w, h]
  rfl

theorem left_step_suffix (w : Window) : w.step.left <:+ w.left := by
  rw [left_eq w]
  exact List.suffix_append _ _

theorem left_start (ts : List Spanned) : (start ts).left = withoutComments ts := by
  rw [start, left_step_of_none rfl, left_step_of_none rfl]
  rfl

theorem comments_step (w : Window) :
    w.step.comments ++ commentSpans w.step.unread = w.comments ++ commentSpans w.unread := by
  rw [commentSpans_eq w.unread, ← List.append_assoc]
  rfl

/-- Where no token comes into sight, none is left out of sight. -/
def Full (w : Window) : Prop :=
  w.next? = none → w.unread = []

theorem full_step (w : Window) : w.step.Full := by
  intro h
  simp only [step, List.head?_eq_none_iff] at h ⊢
  rw [h, List.tail_nil]

/-- A step puts a token in the place of the current one, unless none is left. -/
theorem Full.tokens_step (h : w.Full) : w.step.tokens = w.step.left := by
  have hcurrent : w.step.current? = w.next? := rfl
  rw [tokens, hcurrent]
  cases hnext : w.next? with
  | some t => rfl
  | none =>
    rw [left_step, hnext, h hnext]
    rfl

/-- At first a rule is given all tokens but the comments. -/
theorem tokens_start (ts : List Spanned) : (start ts).tokens = withoutComments ts := by
  rw [start, (full_step _).tokens_step]
  exact left_start ts

theorem left_eq_tokens (h : w.tokens ≠ []) : w.left = w.tokens := by
  rw [tokens] at h ⊢
  cases hcurrent : w.current? with
  | some t => rfl
  | none =>
    rw [hcurrent] at h
    exact absurd rfl h

theorem head?_tokens (w : Window) : w.tokens.head? = w.current? := by
  rw [tokens]
  cases hcurrent : w.current? with
  | some t => rw [left, hcurrent]; rfl
  | none => rfl

namespace Reached

theorem full (h : Reached ts w) : w.Full := by
  induction h with
  | start => exact full_step _
  | step _ _ => exact full_step _
  | take _ ih => exact ih

theorem suffix (h : Reached ts w) : w.left <:+ withoutComments ts := by
  induction h with
  | start => exact (left_start ts).symm ▸ List.suffix_refl _
  | @step w _ ih => exact w.left_step_suffix.trans ih
  | @take w _ ih => exact left_take w ▸ w.left_step_suffix.trans ih

theorem comments (h : Reached ts w) :
    w.comments ++ commentSpans w.unread = commentSpans ts := by
  induction h with
  | start => rw [Window.start, comments_step, comments_step, List.nil_append]
  | step _ ih => rw [comments_step, ih]
  | take _ ih => exact ih

end Reached

/-! ## Rules -/

/-- The parser steps over these tokens, the first ones of those left, and no end mark is among
them. -/
structure Takes (w : Window) (taken : List Spanned) (after : Window) : Prop where
  steps : after = step^[taken.length] w
  left : w.left = taken ++ after.left
  ne_eof : ∀ t ∈ taken, t.token ≠ .eof

/-- Where the parser stands after a rule has failed here. -/
def failed (w : Window) (f : Failure) : Window :=
  if f.taken then w.take else w

/-- The parser comes to stand where the rule leaves its tokens. One that succeeds has less left, and
has its current token in sight; one that fails may have taken its own out. -/
def Moves {α : Type} (ts : List Spanned) (w : Window) : Except Failure (α × List Spanned) → Prop
  | .ok (_, rest) => ∃ taken after, w.Takes taken after ∧ Reached ts after ∧
      after.left.length < w.left.length ∧ after.left = rest ∧ after.tokens = rest
  | .error f => ∃ taken after, w.Takes taken after ∧ Reached ts (after.failed f) ∧
      after.tokens = f.rest ∧ (after.failed f).current? = f.current?

theorem Reached.iterate (h : Reached ts w) (n : Nat) : Reached ts (Window.step^[n] w) := by
  induction n generalizing w with
  | zero => exact h
  | succ n ih => exact ih h.step

theorem Reached.failed (h : Reached ts w) (f : Failure) : Reached ts (w.failed f) := by
  rw [Window.failed]
  split
  · exact h.take
  · exact h

theorem current?_failed {f : Failure} (h : w.tokens = f.rest) :
    (w.failed f).current? = f.current? := by
  rw [failed, Failure.current?, ← h, head?_tokens]
  split <;> rfl

/-- Steps over the first of the tokens that a rule is given come to the others. -/
theorem Full.iterate {taken rest : List Spanned} (h : w.Full) (htokens : w.tokens = taken ++ rest) :
    w.left = taken ++ (step^[taken.length] w).left ∧ (step^[taken.length] w).tokens = rest := by
  induction taken generalizing w with
  | nil => exact ⟨rfl, htokens⟩
  | cons t taken ih =>
    have hleft : w.left = t :: (taken ++ rest) := by
      rw [left_eq_tokens (by simp [htokens]), htokens]
      rfl
    have hcurrent : w.current? = some t := by
      rw [← head?_tokens, htokens]
      rfl
    have hstep : w.step.left = taken ++ rest := by
      rw [left_eq, hcurrent] at hleft
      exact List.tail_eq_of_cons_eq hleft
    obtain ⟨htaken, hrest⟩ := ih (full_step w) (h.tokens_step.trans hstep)
    rw [List.length_cons, Function.iterate_succ_apply, List.cons_append, ← htaken, hstep]
    exact ⟨hleft, hrest⟩

/-- A rule that goes forward in its tokens moves the parser. -/
theorem Reached.moves {α : Type} {o : Outcome α (Spanned.weightAll w.tokens)} {R : Reports}
    {P : α → Prop} (h : Reached ts w) (ho : o.Advances R w.tokens P) : w.Moves ts o.result := by
  cases ho with
  | @ok value rest lighter _ hleaves =>
    have hlt := hleaves.length_lt lighter
    obtain ⟨taken, htokens, heof⟩ := hleaves
    obtain ⟨hleft, hrest⟩ := h.full.iterate htokens
    -- The rule has taken a token, so it was given one, and with it all that was left.
    have hsight : w.left = w.tokens := left_eq_tokens (List.ne_nil_of_length_pos (by omega))
    have hafter : (Window.step^[taken.length] w).left = rest := by
      rw [hsight, htokens] at hleft
      exact (List.append_cancel_left hleft).symm
    refine ⟨taken, _, ⟨rfl, hleft, heof⟩, h.iterate _, ?_, hafter, hrest⟩
    rwa [hafter, hsight]
  | @error f hf =>
    obtain ⟨taken, htokens, heof⟩ := hf.leaves
    obtain ⟨hleft, hrest⟩ := h.full.iterate htokens
    exact ⟨taken, _, ⟨rfl, hleft, heof⟩, (h.iterate _).failed f, hrest, current?_failed hrest⟩

theorem advances_primary (us : List Spanned) :
    (Expr.parsePrimary us).Advances .all us fun _ => True := by
  cases us with
  | nil =>
    rw [Expr.parsePrimary]
    exact .error (Failure.stopsIn_exhausted (.refl []))
  | cons t us =>
    exact advances_parsePrimary (fun _ => Expr.parse_advances _) (Nat.le_refl _)
      (Reports.holds_all _)

/-- From here each rule moves the parser, but for the bindings of a let block and the operators after
a form, which may be none. -/
structure RulesMove (ts : List Spanned) (w : Window) : Prop where
  expression : w.Moves ts (Expr.parse w.tokens).result
  primary : w.Moves ts (Expr.parsePrimary w.tokens).result
  letBlock : w.Moves ts (Expr.parseLet w.tokens).result
  paren (start : Nat) : w.Moves ts (Expr.parseParen start w.tokens).result
  parameters : w.Moves ts (ConfigExpr.parameters w.tokens).result
  lambda (start : Nat) (names : List Name) :
    w.Moves ts (Expr.parseLambda start names w.tokens).result
  mapLiteral : w.Moves ts (Expr.parseMap w.tokens).result
  entries : w.Moves ts (Entry.parseAll w.tokens).result
  listLiteral : w.Moves ts (Expr.parseList w.tokens).result
  sequence (close : Mark) : w.Moves ts (Expr.parseSequence close w.tokens).result
  name : w.Moves ts (expectName w.tokens).result
  mark (m : Mark) : w.Moves ts (expectMark m w.tokens).result

theorem Reached.rulesMove (h : Reached ts w) : w.RulesMove ts := by
  have ih : ∀ {n : Nat} {us}, Spanned.weightAll us < n → Expr.ParseAdvances .all us :=
    fun _ => Expr.parse_advances _
  have hall := Reports.holds_all w.tokens
  have hnames : ∀ names : List Name, ∀ m ∈ names, Reports.all.Marks m :=
    fun _ m _ => ⟨⟨.eof, m.span⟩, trivial, rfl⟩
  have hlt := Nat.lt_succ_self (Spanned.weightAll w.tokens)
  exact {
    expression := h.moves (Expr.parse_advances _ hall)
    primary := h.moves (advances_primary _)
    letBlock := h.moves (advances_parseLet ih (Nat.le_refl _) hall)
    paren := fun _ => h.moves (advances_parseParen ih hlt hall)
    parameters := h.moves (advances_parameters hall)
    lambda := fun _ names => h.moves (advances_parseLambda ih hlt (hnames names) hall)
    mapLiteral := h.moves (advances_parseMap ih (Nat.le_refl _) hall)
    entries := h.moves (advances_parseAll_entries ih hlt hall)
    listLiteral := h.moves (advances_parseList ih (Nat.le_refl _) hall)
    sequence := fun close => h.moves (advances_parseSequence ih close hlt hall)
    name := h.moves (advances_expectName hall)
    mark := fun m => h.moves (advances_expectMark m hall) }

/-! ## Loops -/

/-- A round of a step: one more comment passed over, or the token that comes into sight. -/
def commentsRound (comments : List Span) : Rule (Round (List Span) (List Span × Option Spanned))
  | [] => .ok (.done (comments, none), [])
  | t :: ts =>
    if t.token.isComment then .ok (.again (comments ++ [t.span]), ts)
    else .ok (.done (comments, some t), ts)

/-- The token that comes into sight, with the comments passed over. -/
def commentsFrom (comments : List Span) : Rule (List Span × Option Spanned) := fun ts =>
  .ok ((comments ++ (ts.takeWhile (·.token.isComment)).map (·.span),
    (ts.dropWhile (·.token.isComment)).head?), (ts.dropWhile (·.token.isComment)).tail)

theorem commentsFrom_eq (comments : List Span) :
    commentsFrom comments = (commentsRound comments).andThen (Rule.goOn commentsFrom) := by
  funext ts
  cases ts with
  | nil => simp [commentsFrom, commentsRound, Rule.andThen, Rule.give]
  | cons t ts =>
    by_cases ht : t.token.isComment = true
    · simp [commentsFrom, commentsRound, Rule.andThen, ht]
    · simp [commentsFrom, commentsRound, Rule.andThen, Rule.give, ht]

theorem length_of_commentsRound {comments next : List Span} {left : List Spanned}
    (h : commentsRound comments ts = .ok (.again next, left)) : left.length + 1 ≤ ts.length := by
  cases ts with
  | nil => cases h
  | cons t ts =>
    rw [commentsRound] at h
    split at h
    · cases h
      exact Nat.le_refl _
    · cases h

/-- From here no loop goes round again more often than there are tokens left: the loop of each rule,
which comes to the rule's outcome, and that of a step, which passes over the comments. -/
structure LoopsEnd (w : Window) : Prop where
  sequence (close : Mark) : Rule.loop (sequenceRound close) (w.tokens.length - 1) [] w.tokens =
    some (Expr.parseSequence close w.tokens).result
  bindings : Rule.loop bindingsRound (w.tokens.length - 1) [] w.tokens =
    some (Binding.parseAll w.tokens (Nat.lt_succ_self _)).result
  parameters : Rule.loop parametersRound (w.tokens.length - 1) [] w.tokens =
    some (ConfigExpr.parameters w.tokens).result
  entries : Rule.loop entriesRound (w.tokens.length - 1) [] w.tokens =
    some (Entry.parseAll w.tokens).result
  operators (e : Expr) : Rule.loop postfixRound (w.tokens.length - 1) e w.tokens =
    some (Expr.parsePostfix e w.tokens (Nat.lt_succ_self _)).result
  comments : Rule.loop commentsRound w.unread.length w.comments w.unread =
    some (.ok ((w.step.comments, w.step.next?), w.step.unread))

theorem loopsEnd (w : Window) : w.LoopsEnd where
  sequence close := loop_sequenceRound close w.tokens
  bindings := loop_bindingsRound w.tokens
  parameters := loop_parametersRound w.tokens
  entries := loop_entriesRound w.tokens
  operators e := loop_postfixRound e w.tokens
  comments := Rule.loop_eq commentsFrom_eq length_of_commentsRound _ _ _ (by omega)

/-- Wherever a parser comes to stand, what is left of its tokens is at their end, and no comment is
lost. A rule moves the parser forward, over at least one token if it succeeds and over no end mark,
and its loops end. -/
theorem parser_advances (h : Reached ts w) :
    w.left <:+ withoutComments ts ∧ w.comments ++ commentSpans w.unread = commentSpans ts ∧
      w.RulesMove ts ∧ w.LoopsEnd :=
  ⟨h.suffix, h.comments, h.rulesMove, w.loopsEnd⟩

/-- A list, without an end mark, whose second item is a string with code that is no expression. -/
def unended : List Spanned :=
  (Tokens.ofText "# a\n[f(1), # b\n\"$\x7b)\x7d\"] (").tokens.dropLast

/-- The list fails at its seventh token, which it takes out. Its first item has four tokens. -/
theorem parser_advances_code :
    Reached unended (start unended) ∧ (start unended).comments = [⟨0, 3⟩] ∧
      (start unended).left.map (·.token.text) =
        ["[", "f", "(", "1", ")", ",", "string", "]", "("] ∧
      exprRule (start unended).tokens = .error
        ⟨⟨.unexpected (.mark .closeParen) [.expression], ⟨18, 19⟩⟩, (start unended).left.drop 6,
          true⟩ ∧
      (start unended).Moves unended (exprRule (start unended).tokens) ∧
      exprRule (start unended).step.tokens = .ok
        (.apply (.name ⟨"f", ⟨5, 6⟩⟩) [.int 1 ⟨7, 8⟩] ⟨5, 9⟩,
          (start unended).step.left.drop 4) ∧
      (start unended).step.Moves unended (exprRule (start unended).step.tokens) :=
  ⟨.start, by cbv, by cbv, by cbv, (parser_advances .start).2.2.1.expression, by cbv,
    (parser_advances (.step .start)).2.2.1.expression⟩

end Window

end ConfigExpr
