import ConfigExpr.Proofs.Moved
import ConfigExpr.Proofs.Steps

/-!
# Parsing moved tokens

The parser compares no positions. So from moved tokens it gets the moved expression, or fails at the
moved place (`Expr.parse_moves`); only where the tokens run out the error has no place to move.
-/

namespace ConfigExpr

abbrev Spanned.moveAll (g : Nat → Nat) : List Spanned → List Spanned :=
  Spanned.mapSpansAll (Span.move g)

abbrev Expr.move (g : Nat → Nat) : Expr → Expr :=
  Expr.mapSpans (Span.move g)

abbrev Name.move (g : Nat → Nat) : Name → Name :=
  Name.mapSpan (Span.move g)

def ParseFault.mapSpans (f : Span → Span) : ParseFault → ParseFault
  | .unexpected found expected => .unexpected (found.mapSpans f) expected
  | fault => fault

def ParseError.mapSpans (f : Span → Span) (e : ParseError) : ParseError :=
  ⟨e.fault.mapSpans f, f e.span⟩

/-- The second error is the first one moved, or both report that the tokens ran out. -/
def ParseError.Moves (g : Nat → Nat) (e e' : ParseError) : Prop :=
  e' = e.mapSpans (Span.move g) ∨ e = Failure.exhausted.error ∧ e' = Failure.exhausted.error

structure Failure.Moves (g : Nat → Nat) (f f' : Failure) : Prop where
  error : f.error.Moves g f'.error
  rest : f'.rest = Spanned.moveAll g f.rest
  taken : f'.taken = f.taken

/-- The second outcome is the first one moved, its value by the function given. -/
inductive Outcome.Moves {α : Type} {m n : Nat} (g : Nat → Nat) (move : α → α) :
    Outcome α m → Outcome α n → Prop where
  | ok {value value' : α} {rest rest' : List Spanned} {lighter : Spanned.weightAll rest < m}
    {lighter' : Spanned.weightAll rest' < n} :
    value' = move value → rest' = Spanned.moveAll g rest →
    Moves g move (.ok value rest lighter) (.ok value' rest' lighter')
  | error {f f' : Failure} : f.Moves g f' → Moves g move (.error f) (.error f')

variable {g : Nat → Nat}

namespace Outcome.Moves

variable {α β : Type} {m n m' n' : Nat} {move : α → α} {move' : β → β} {o : Outcome α m}
  {o' : Outcome α n}

theorem map {k k' : α → β} (h : o.Moves g move o')
    (hk : ∀ value, k' (move value) = move' (k value)) :
    (o.map k).Moves g move' (o'.map k') := by
  cases h with
  | ok hvalue hrest => exact .ok (hvalue ▸ hk _) hrest
  | error hf => exact .error hf

theorem weaken {hm : m < m'} {hn : n < n'} (h : o.Moves g move o') :
    (o.weaken hm).Moves g move (o'.weaken hn) := by
  cases h with
  | ok hvalue hrest => exact .ok hvalue hrest
  | error hf => exact .error hf

/-- What holds after two errors, and after any value and the same one moved. -/
@[elab_as_elim]
theorem elim {C : Outcome α m → Outcome α n → Prop} (h : o.Moves g move o')
    (error : ∀ f f' : Failure, f.Moves g f' → C (.error f) (.error f'))
    (ok : ∀ value rest lighter lighter',
      C (.ok value rest lighter) (.ok (move value) (Spanned.moveAll g rest) lighter')) :
    C o o' := by
  cases h with
  | error hf => exact error _ _ hf
  | ok hvalue hrest =>
    subst hvalue hrest
    exact ok _ _ _ _

end Outcome.Moves

open Outcome (Moves)

section

variable (f : Span → Span)

@[simp] theorem Token.isMark_mapSpans (m : Mark) (t : Token) :
    (t.mapSpans f).isMark m = t.isMark m := by
  cases t <;> rfl

@[simp] theorem Token.isKeyword_mapSpans (w : Keyword) (t : Token) :
    (t.mapSpans f).isKeyword w = t.isKeyword w := by
  cases t <;> rfl

@[simp] theorem Token.isEof_mapSpans (t : Token) : (t.mapSpans f).isEof = t.isEof := by
  cases t <;> rfl

end

namespace Failure

theorem moves_exhausted : exhausted.Moves g exhausted :=
  ⟨.inr ⟨rfl, rfl⟩, rfl, rfl⟩

theorem moves_stop {fault fault' : ParseFault} (h : fault' = fault.mapSpans (Span.move g))
    (s : Span) (rest : List Spanned) :
    (stop fault s rest).Moves g (stop fault' (s.move g) (Spanned.moveAll g rest)) :=
  ⟨.inl (h ▸ rfl), rfl, rfl⟩

theorem moves_unexpected (t : Spanned) (rest : List Spanned) (expected : List Expected) :
    (unexpected t rest expected).Moves g
      (unexpected (t.mapSpans (Span.move g)) (Spanned.moveAll g rest) expected) := by
  obtain ⟨token, span⟩ := t
  cases token <;> exact moves_stop rfl span _

end Failure

open Failure (moves_exhausted moves_stop moves_unexpected)

/-! ## Single tokens -/

theorem moves_expectMark (m : Mark) (ts : List Spanned) :
    (expectMark m ts).Moves g (Span.move g) (expectMark m (Spanned.moveAll g ts)) := by
  cases ts with
  | nil => exact .error moves_exhausted
  | cons t ts =>
    show (expectMark m (t :: ts)).Moves g _ (expectMark m (t.mapSpans _ :: Spanned.moveAll g ts))
    simp only [expectMark, Spanned.mapSpans_token, Token.isMark_mapSpans]
    split
    · exact .ok (t.mapSpans_span _) rfl
    · exact .error (moves_unexpected t ts _)

theorem moves_expectKeyword (w : Keyword) (ts : List Spanned) :
    (expectKeyword w ts).Moves g (Span.move g) (expectKeyword w (Spanned.moveAll g ts)) := by
  cases ts with
  | nil => exact .error moves_exhausted
  | cons t ts =>
    show (expectKeyword w (t :: ts)).Moves g _
      (expectKeyword w (t.mapSpans _ :: Spanned.moveAll g ts))
    simp only [expectKeyword, Spanned.mapSpans_token, Token.isKeyword_mapSpans]
    split
    · exact .ok (t.mapSpans_span _) rfl
    · exact .error (moves_unexpected t ts _)

theorem moves_expectEof (ts : List Spanned) :
    (expectEof ts).Moves g (Span.move g) (expectEof (Spanned.moveAll g ts)) := by
  cases ts with
  | nil => exact .error moves_exhausted
  | cons t ts =>
    show (expectEof (t :: ts)).Moves g _ (expectEof (t.mapSpans _ :: Spanned.moveAll g ts))
    simp only [expectEof, Spanned.mapSpans_token, Token.isEof_mapSpans]
    split
    · exact .ok (t.mapSpans_span _) rfl
    · exact .error (moves_unexpected t ts _)

theorem moves_expectName (ts : List Spanned) :
    (expectName ts).Moves g (Name.move g) (expectName (Spanned.moveAll g ts)) := by
  cases ts with
  | nil => exact .error moves_exhausted
  | cons t ts =>
    obtain ⟨token, span⟩ := t
    cases token with
    | ident => exact .ok rfl rfl
    | _ => exact .error (moves_stop rfl span (_ :: ts))

theorem moves_parameters : ∀ ts : List Spanned,
    (parameters ts).Moves g (List.map (Name.move g)) (parameters (Spanned.moveAll g ts))
  | ts => by
    rw [parameters, parameters]
    refine (moves_expectName (g := g) ts).elim (fun _ _ => .error) fun name rest lighter _ => ?_
    cases rest with
    | nil => exact .error moves_exhausted
    | cons t rest =>
      simp only [Spanned.mapSpansAll, Spanned.mapSpans_token, Token.isMark_mapSpans]
      split
      · have := Nat.lt_trans (t.weightAll_lt_cons rest) lighter
        exact .weaken (.map (moves_parameters rest) fun _ => rfl)
      split
      · exact .ok rfl rfl
      · exact .error (moves_unexpected t rest _)
termination_by ts => Spanned.weightAll ts

/-! ## The rules -/

theorem Program.withoutComments_moveAll (g : Nat → Nat) (ts : List Spanned) :
    withoutComments (Spanned.moveAll g ts) = Spanned.moveAll g (withoutComments ts) := by
  simp [withoutComments, Spanned.mapSpansAll_eq_map, List.filter_map, Function.comp_def]

theorem skipComma_moveAll (ts : List Spanned) :
    skipComma (Spanned.moveAll g ts) = Spanned.moveAll g (skipComma ts) := by
  cases ts with
  | nil => rfl
  | cons t ts =>
    simp only [Spanned.mapSpansAll, skipComma, Spanned.mapSpans_token, Token.isMark_mapSpans]
    split <;> rfl

theorem beginsWith_moveAll (m : Mark) (ts : List Spanned) :
    beginsWith m (Spanned.moveAll g ts) = beginsWith m ts := by
  cases ts with
  | nil => rfl
  | cons t ts => simp only [Spanned.mapSpansAll, beginsWith, Spanned.mapSpans_token,
      Token.isMark_mapSpans]

theorem ofTokens_moveAll (ts : List Spanned) :
    ParenForm.ofTokens (Spanned.moveAll g ts) = ParenForm.ofTokens ts := by
  rcases ts with _ | ⟨⟨token, span⟩, _ | ⟨u, us⟩⟩
  · rfl
  · cases token with
    | mark m => cases m <;> rfl
    | _ => rfl
  · cases token with
    | mark m => cases m <;> rfl
    | ident name =>
      simp only [Spanned.mapSpansAll, Spanned.mapSpans, Token.mapSpans, ParenForm.ofTokens,
        Spanned.mapSpans_token, Token.isMark_mapSpans]
    | _ => rfl

theorem plainText?_mapSpansAll (f : Span → Span) (segments : List Segment) :
    Segment.plainText? (Segment.mapSpansAll f segments) = Segment.plainText? segments := by
  induction segments with
  | nil => rfl
  | cons s segments ih =>
    cases s with
    | text s => simp only [Segment.mapSpansAll, Segment.mapSpans, Segment.plainText?, ih]
    | code e => rfl

/-- The second result is the first one moved, or both are errors of which the relation holds. -/
inductive ResultMoves {ε α : Type} (errors : ε → ε → Prop) (move : α → α) :
    Except ε α → Except ε α → Prop where
  | ok {value : α} : ResultMoves errors move (.ok value) (.ok (move value))
  | error {e e' : ε} : errors e e' → ResultMoves errors move (.error e) (.error e')

@[elab_as_elim]
theorem ResultMoves.elim {ε α : Type} {errors : ε → ε → Prop} {move : α → α}
    {C : Except ε α → Except ε α → Prop} {r r' : Except ε α} (h : ResultMoves errors move r r')
    (error : ∀ e e', errors e e' → C (.error e) (.error e'))
    (ok : ∀ value, C (.ok value) (.ok (move value))) : C r r' := by
  cases h with
  | ok => exact ok _
  | error he => exact error _ _ he

/-- From moved tokens the parser gets the moved expression, or the moved failure. -/
def Expr.ParseMoves (g : Nat → Nat) (ts : List Spanned) : Prop :=
  (Expr.parse ts).Moves g (Expr.move g) (Expr.parse (Spanned.moveAll g ts))

section

variable {n : Nat} (ih : ∀ {us}, Spanned.weightAll us < n → Expr.ParseMoves g us)

include ih

theorem moves_parseSequence (close : Mark) : ∀ {ts : List Spanned}, Spanned.weightAll ts < n →
    (Expr.parseSequence close ts).Moves g (fun r => (Expr.mapSpansAll (Span.move g) r.1, g r.2))
      (Expr.parseSequence close (Spanned.moveAll g ts))
  | [], _ => by
    show (Expr.parseSequence close []).Moves g _ (Expr.parseSequence close [])
    rw [Expr.parseSequence]
    exact .error moves_exhausted
  | t :: ts, hn => by
    have hitem : (Expr.parse (t :: ts)).Moves g (Expr.move g)
      (Expr.parse (t.mapSpans (Span.move g) :: Spanned.moveAll g ts)) := ih hn
    show (Expr.parseSequence close (t :: ts)).Moves g _
      (Expr.parseSequence close (t.mapSpans _ :: Spanned.moveAll g ts))
    rw [Expr.parseSequence, Expr.parseSequence, Spanned.mapSpans_token, Token.isMark_mapSpans]
    split
    · exact .ok (by simp [Span.move, Expr.mapSpansAll]) rfl
    refine hitem.elim (fun _ _ => .error) fun item rest lighter _ => ?_
    cases rest with
    | nil => exact .error moves_exhausted
    | cons u left =>
      simp only [Spanned.mapSpansAll, Spanned.mapSpans_token, Token.isMark_mapSpans]
      split
      · have hleft := Nat.lt_trans (u.weightAll_lt_cons left) lighter
        exact .weaken (.map (moves_parseSequence close (Nat.lt_trans hleft hn)) fun _ => rfl)
      split
      · exact .ok (by simp [Span.move, Expr.mapSpansAll]) rfl
      · exact .error (moves_unexpected u left _)
termination_by ts => Spanned.weightAll ts

theorem moves_parseAll_segments : ∀ {parts : List StringPart},
    StringPart.weightAll parts ≤ n →
    ResultMoves (ParseError.Moves g) (Segment.mapSpansAll (Span.move g)) (Segment.parseAll parts)
      (Segment.parseAll (StringPart.mapSpansAll (Span.move g) parts))
  | [], _ => by
    rw [StringPart.mapSpansAll, Segment.parseAll]
    exact .ok
  | .text s :: parts, hn => by
    have hlt := StringPart.weightAll_lt_cons_self (.text s) parts
    have hothers := moves_parseAll_segments (Nat.le_trans (Nat.le_of_lt hlt) hn)
    rw [StringPart.mapSpansAll, StringPart.mapSpans, Segment.parseAll, Segment.parseAll]
    exact hothers.elim (fun _ _ => .error) fun _ => .ok
  | .code tokens :: parts, hn => by
    have hlt := StringPart.weightAll_lt_cons_self (.code tokens) parts
    have hothers := moves_parseAll_segments (Nat.le_trans (Nat.le_of_lt hlt) hn)
    have htokens := Nat.lt_of_lt_of_le (Program.weightAll_withoutComments_lt_code tokens parts) hn
    have hparse := ih htokens
    rw [Expr.ParseMoves, ← Program.withoutComments_moveAll] at hparse
    rw [StringPart.mapSpansAll, StringPart.mapSpans, Segment.parseAll, Segment.parseAll]
    refine hparse.elim (fun _ _ hf => .error hf.error) fun e rest _ _ => ?_
    dsimp only
    refine (moves_expectEof (g := g) rest).elim (fun _ _ hf => .error hf.error) fun _ _ _ _ => ?_
    dsimp only
    exact hothers.elim (fun _ _ => .error) fun _ => .ok

theorem moves_parseKey {t : Spanned} {ts : List Spanned} (hn : Spanned.weightAll (t :: ts) ≤ n) :
    ResultMoves (Failure.Moves g) (Name.move g) (Name.parseKey t ts)
      (Name.parseKey (t.mapSpans (Span.move g)) (Spanned.moveAll g ts)) := by
  obtain ⟨token, span⟩ := t
  cases token with
  | ident text =>
    rw [Spanned.mapSpans, Token.mapSpans, Name.parseKey, Name.parseKey]
    · exact .ok
    · simp
  | string parts =>
    have hlt := StringPart.weightAll_lt_cons (t := ⟨.string parts, span⟩) rfl ts
    have hsegments := moves_parseAll_segments ih (Nat.le_trans (Nat.le_of_lt hlt) hn)
    rw [Spanned.mapSpans, Token.mapSpans, Name.parseKey, Name.parseKey]
    dsimp only
    refine hsegments.elim (fun _ _ he => .error ⟨he, rfl, rfl⟩) fun segments => ?_
    dsimp only
    rw [plainText?_mapSpansAll]
    split
    · exact .ok
    · exact .error (moves_stop rfl span (_ :: ts))
  | _ =>
    rw [Name.parseKey, Name.parseKey]
    exact .error (moves_unexpected _ ts _)

theorem moves_parseAll_entries : ∀ {ts : List Spanned}, Spanned.weightAll ts < n →
    (Entry.parseAll ts).Moves g (fun r => (Entry.mapSpansAll (Span.move g) r.1, g r.2))
      (Entry.parseAll (Spanned.moveAll g ts))
  | [], _ => by
    show (Entry.parseAll []).Moves g _ (Entry.parseAll [])
    rw [Entry.parseAll]
    exact .error moves_exhausted
  | t :: ts, hn => by
    show (Entry.parseAll (t :: ts)).Moves g _
      (Entry.parseAll (t.mapSpans _ :: Spanned.moveAll g ts))
    rw [Entry.parseAll, Entry.parseAll, Spanned.mapSpans_token, Token.isMark_mapSpans]
    split
    · exact .ok (by simp [Span.move, Entry.mapSpansAll]) rfl
    refine (moves_parseKey ih (Nat.le_of_lt hn)).elim (fun _ _ => .error) fun key => ?_
    dsimp only
    refine (moves_expectMark (g := g) .colon ts).elim (fun _ _ => .error)
      fun _ afterColon lighter _ => ?_
    have hlt := Nat.lt_trans lighter (t.weightAll_lt_cons ts)
    dsimp only
    refine (ih (Nat.lt_trans hlt hn)).elim (fun _ _ => .error) fun value left lighter' _ => ?_
    have hleft := Nat.lt_of_le_of_lt (weightAll_skipComma_le left) (Nat.lt_trans lighter' hlt)
    have hothers := moves_parseAll_entries (Nat.lt_trans hleft hn)
    rw [← skipComma_moveAll] at hothers
    exact .weaken (.map hothers fun _ => rfl)
termination_by ts => Spanned.weightAll ts

theorem moves_parseAll_bindings {m m' : Nat} : ∀ {ts ts' : List Spanned}
    {h : Spanned.weightAll ts < m} {h' : Spanned.weightAll ts' < m'},
    ts' = Spanned.moveAll g ts → Spanned.weightAll ts < n →
    (Binding.parseAll ts h).Moves g (Binding.mapSpansAll (Span.move g)) (Binding.parseAll ts' h')
  | [], _, _, _, hts', _ => by
    obtain rfl : _ = [] := hts'
    rw [Binding.parseAll, Binding.parseAll]
    exact .ok rfl rfl
  | t :: ts, _, _, _, hts', hn => by
    have hts := Nat.lt_trans (t.weightAll_lt_cons ts) hn
    obtain rfl : _ = t.mapSpans _ :: Spanned.moveAll g ts := hts'
    rw [Binding.parseAll, Binding.parseAll, Spanned.mapSpans_token, Spanned.mapSpans_span]
    cases t.token with
    | ident text =>
      dsimp only [Token.mapSpans]
      refine (moves_expectMark (g := g) .equals ts).elim (fun _ _ => .error)
        fun _ afterEquals lighter _ => ?_
      have hlt := Nat.lt_trans lighter hts
      dsimp only
      refine (ih hlt).elim (fun _ _ => .error) fun value left lighter' _ => ?_
      have hleft := Nat.lt_trans lighter' lighter
      exact .map (moves_parseAll_bindings rfl (Nat.lt_trans lighter' hlt)) fun _ => rfl
    | _ => exact .ok rfl rfl
termination_by ts => Spanned.weightAll ts
decreasing_by exact Nat.lt_trans hleft (t.weightAll_lt_cons ts)

theorem moves_parseLambda {start : Nat} {names : List Name} {ts : List Spanned}
    (hn : Spanned.weightAll ts < n) :
    (Expr.parseLambda start names ts).Moves g (Expr.move g)
      (Expr.parseLambda (g start) (names.map (Name.move g)) (Spanned.moveAll g ts)) := by
  rw [Expr.parseLambda, Expr.parseLambda, Name.repeated?_map_mapSpan]
  cases Name.repeated? [] names with
  | some name => exact .error (moves_stop rfl name.span ts)
  | none =>
    dsimp only [Option.map]
    refine (moves_expectMark (g := g) .arrow ts).elim (fun _ _ => .error)
      fun _ rest lighter _ => ?_
    refine .weaken (.map (ih (Nat.lt_trans lighter hn)) fun body => ?_)
    simp only [Expr.mapSpans, Expr.span_mapSpans, Span.move]

theorem moves_parseLet {ts : List Spanned} (hn : Spanned.weightAll ts ≤ n) :
    (Expr.parseLet ts).Moves g (Expr.move g) (Expr.parseLet (Spanned.moveAll g ts)) := by
  rw [Expr.parseLet, Expr.parseLet]
  refine (moves_expectKeyword (g := g) .letWord ts).elim (fun _ _ => .error)
    fun word afterWord lighter lighter' => ?_
  have hbindings : (Binding.parseAll afterWord lighter).Moves g _
      (Binding.parseAll (Spanned.moveAll g afterWord) lighter') :=
    moves_parseAll_bindings ih rfl (Nat.lt_of_lt_of_le lighter hn)
  dsimp only
  refine hbindings.elim (fun _ _ => .error) fun bindings left lighter₁ _ => ?_
  cases bindings with
  | nil =>
    cases left with
    | nil => exact .error (moves_stop rfl (.point word.stop) [])
    | cons t left =>
      obtain ⟨token, span⟩ := t
      exact .error (moves_stop rfl span (⟨token, span⟩ :: left))
  | cons b bindings =>
    simp only [Binding.mapSpansAll]
    refine (moves_expectKeyword (g := g) .inWord left).elim (fun _ _ => .error)
      fun _ afterIn lighter₂ _ => ?_
    have hafterIn := Nat.lt_of_lt_of_le (Nat.lt_trans lighter₂ lighter₁) hn
    refine .weaken (.map (ih hafterIn) fun body => ?_)
    simp only [Expr.mapSpans, Binding.mapSpansAll, Expr.span_mapSpans, Span.move]

theorem moves_parseParen {start : Nat} {ts : List Spanned} (hn : Spanned.weightAll ts < n) :
    (Expr.parseParen start ts).Moves g (Expr.move g)
      (Expr.parseParen (g start) (Spanned.moveAll g ts)) := by
  rw [Expr.parseParen, Expr.parseParen, ofTokens_moveAll]
  cases ParenForm.ofTokens ts with
  | noParameters =>
    dsimp only
    refine (moves_expectMark (g := g) .closeParen ts).elim (fun _ _ => .error)
      fun _ rest lighter _ => ?_
    exact .weaken (moves_parseLambda ih (Nat.lt_trans lighter hn))
  | parameterList =>
    dsimp only
    refine (moves_parameters (g := g) ts).elim (fun _ _ => .error) fun names rest lighter _ => ?_
    exact .weaken (moves_parseLambda ih (Nat.lt_trans lighter hn))
  | singleName =>
    dsimp only
    refine (moves_expectName (g := g) ts).elim (fun _ _ => .error)
      fun name afterName lighter _ => ?_
    dsimp only
    refine (moves_expectMark (g := g) .closeParen afterName).elim (fun _ _ => .error)
      fun _ rest lighter' _ => ?_
    simp only [beginsWith_moveAll]
    split
    · exact .weaken (moves_parseLambda ih (Nat.lt_trans (Nat.lt_trans lighter' lighter) hn))
    · exact .ok rfl rfl
  | group =>
    dsimp only
    refine (ih hn).elim (fun _ _ => .error) fun e left _ _ => ?_
    exact .weaken (.map (moves_expectMark .closeParen left) fun _ => rfl)

theorem moves_parsePostfix {m m' : Nat} : ∀ {ts ts' : List Spanned} {e e' : Expr}
    {h : Spanned.weightAll ts < m} {h' : Spanned.weightAll ts' < m'},
    ts' = Spanned.moveAll g ts → e' = e.move g → Spanned.weightAll ts < n →
    (Expr.parsePostfix e ts h).Moves g (Expr.move g) (Expr.parsePostfix e' ts' h')
  | [], _, e, _, _, _, hts', rfl, _ => by
    obtain rfl : _ = [] := hts'
    rw [Expr.parsePostfix, Expr.parsePostfix]
    exact .ok rfl rfl
  | t :: ts, _, e, _, _, _, hts', rfl, hn => by
    have hlt := t.weightAll_lt_cons ts
    obtain rfl : _ = t.mapSpans _ :: Spanned.moveAll g ts := hts'
    rw [Expr.parsePostfix, Expr.parsePostfix, Spanned.mapSpans_token]
    cases t.token with
    | mark mark =>
      cases mark with
      | dot =>
        dsimp only [Token.mapSpans]
        refine (moves_expectName (g := g) ts).elim (fun _ _ => .error)
          fun name afterName lighter _ => ?_
        have hafter := Nat.lt_trans lighter hlt
        cases afterName with
        | nil =>
          exact .ok (by simp [Expr.mapSpans, Expr.span_mapSpans, Span.move, Name.mapSpan]) rfl
        | cons u afterName =>
          simp only [Spanned.mapSpansAll, Spanned.mapSpans_token, Token.isMark_mapSpans]
          split
          · have htail := Nat.lt_trans (u.weightAll_lt_cons afterName) hafter
            refine (moves_parseSequence ih .closeParen (Nat.lt_trans htail hn)).elim
              (fun _ _ => .error) fun r left lighter' _ => ?_
            have hleft := Nat.lt_trans lighter' htail
            exact moves_parsePostfix rfl
              (by simp only [Expr.mapSpans, Expr.span_mapSpans, Span.move])
              (Nat.lt_trans hleft hn)
          · exact moves_parsePostfix rfl
              (by simp only [Expr.mapSpans, Expr.span_mapSpans, Span.move, Name.mapSpan])
              (Nat.lt_trans hafter hn)
      | openBracket =>
        dsimp only [Token.mapSpans]
        refine (ih (Nat.lt_trans hlt hn)).elim (fun _ _ => .error)
          fun key afterKey lighter _ => ?_
        dsimp only
        refine (moves_expectMark (g := g) .closeBracket afterKey).elim (fun _ _ => .error)
          fun close left lighter' _ => ?_
        have hleft := Nat.lt_trans (Nat.lt_trans lighter' lighter) hlt
        exact moves_parsePostfix rfl
          (by simp only [Expr.mapSpans, Expr.span_mapSpans, Span.move])
          (Nat.lt_trans hleft hn)
      | openParen =>
        dsimp only [Token.mapSpans]
        refine (moves_parseSequence ih .closeParen (Nat.lt_trans hlt hn)).elim
          (fun _ _ => .error) fun r left lighter _ => ?_
        have hleft := Nat.lt_trans lighter hlt
        exact moves_parsePostfix rfl
          (by simp only [Expr.mapSpans, Expr.span_mapSpans, Span.move])
          (Nat.lt_trans hleft hn)
      | _ => exact .ok rfl rfl
    | _ => exact .ok rfl rfl
termination_by ts => Spanned.weightAll ts

theorem moves_parseList {ts : List Spanned} (hn : Spanned.weightAll ts ≤ n) :
    (Expr.parseList ts).Moves g (Expr.move g) (Expr.parseList (Spanned.moveAll g ts)) := by
  rw [Expr.parseList, Expr.parseList]
  refine (moves_expectMark (g := g) .openBracket ts).elim (fun _ _ => .error)
    fun _ rest lighter _ => ?_
  exact .weaken (.map (moves_parseSequence ih .closeBracket (Nat.lt_of_lt_of_le lighter hn))
    fun _ => rfl)

theorem moves_parseMap {ts : List Spanned} (hn : Spanned.weightAll ts ≤ n) :
    (Expr.parseMap ts).Moves g (Expr.move g) (Expr.parseMap (Spanned.moveAll g ts)) := by
  rw [Expr.parseMap, Expr.parseMap]
  refine (moves_expectMark (g := g) .openBrace ts).elim (fun _ _ => .error)
    fun _ rest lighter _ => ?_
  exact .weaken (.map (moves_parseAll_entries ih (Nat.lt_of_lt_of_le lighter hn)) fun _ => rfl)

theorem moves_parsePrimary {t : Spanned} {ts : List Spanned}
    (hn : Spanned.weightAll (t :: ts) ≤ n) :
    (Expr.parsePrimary (t :: ts)).Moves g (Expr.move g)
      (Expr.parsePrimary (t.mapSpans (Span.move g) :: Spanned.moveAll g ts)) := by
  have hts := Nat.lt_of_lt_of_le (t.weightAll_lt_cons ts) hn
  obtain ⟨token, span⟩ := t
  cases token with
  | int | float | ident =>
    rw [Expr.parsePrimary, Expr.parsePrimary]
    exact .ok rfl rfl
  | keyword w =>
    cases w with
    | trueWord | falseWord =>
      rw [Expr.parsePrimary, Expr.parsePrimary]
      exact .ok rfl rfl
    | _ =>
      rw [Expr.parsePrimary, Expr.parsePrimary]
      exact .error (moves_unexpected _ ts _)
  | string parts =>
    have hlt := StringPart.weightAll_lt_cons (t := ⟨.string parts, span⟩) rfl ts
    have hsegments := moves_parseAll_segments ih (Nat.le_trans (Nat.le_of_lt hlt) hn)
    rw [Spanned.mapSpans, Token.mapSpans, Expr.parsePrimary, Expr.parsePrimary]
    dsimp only
    exact hsegments.elim (fun _ _ he => .error ⟨he, rfl, rfl⟩) fun _ => .ok rfl rfl
  | mark m =>
    cases m with
    | openBrace =>
      rw [Expr.parsePrimary, Expr.parsePrimary]
      · exact moves_parseMap ih hn
    | openBracket =>
      rw [Expr.parsePrimary, Expr.parsePrimary]
      · exact moves_parseList ih hn
    | openParen =>
      rw [Expr.parsePrimary, Expr.parsePrimary]
      · exact .weaken (moves_parseParen ih hts)
    | _ =>
      rw [Expr.parsePrimary, Expr.parsePrimary]
      exact .error (moves_unexpected _ ts _)
  | _ =>
    rw [Expr.parsePrimary, Expr.parsePrimary]
    exact .error (moves_unexpected _ ts _)

end

/-- The parser does the same with moved tokens as with the tokens themselves. -/
theorem Expr.parse_moves (g : Nat → Nat) (ts : List Spanned) : Expr.ParseMoves g ts := by
  cases ts with
  | nil =>
    show (Expr.parse []).Moves g _ (Expr.parse [])
    rw [Expr.parse]
    exact .error moves_exhausted
  | cons t ts =>
    have ih : ∀ {us}, Spanned.weightAll us < Spanned.weightAll (t :: ts) → Expr.ParseMoves g us :=
      fun {us} _ => Expr.parse_moves g us
    show (Expr.parse (t :: ts)).Moves g _ (Expr.parse (t.mapSpans _ :: Spanned.moveAll g ts))
    rw [Expr.parse, Expr.parse, Spanned.mapSpans_token, Token.isKeyword_mapSpans]
    split
    · exact moves_parseLet ih (Nat.le_refl _)
    · exact (moves_parsePrimary ih (Nat.le_refl _)).elim (fun _ _ => .error)
        fun e left lighter _ => moves_parsePostfix ih rfl rfl lighter
termination_by Spanned.weightAll ts

theorem Expr.parseWhole_moves (g : Nat → Nat) (ts : List Spanned) :
    (Expr.parseWhole ts).Moves g (Expr.move g) (Expr.parseWhole (Spanned.moveAll g ts)) := by
  rw [Expr.parseWhole, Expr.parseWhole]
  refine (Expr.parse_moves g ts).elim (fun _ _ => .error) fun e left _ _ => ?_
  dsimp only
  exact (moves_expectEof (g := g) left).elim (fun _ _ => .error) fun _ _ _ _ => .ok rfl rfl

end ConfigExpr
