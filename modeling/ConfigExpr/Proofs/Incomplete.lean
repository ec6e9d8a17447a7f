import ConfigExpr.Proofs.Accepts

/-!
# Incomplete programs

The first tokens of a program are a program too, or they are incomplete: the parser reports that the
input ends (`Program.incomplete_of_parse`). It fails at the end mark put in their place, or at no
place where there is none. Only after a `let` it asks for a binding instead.

The parser runs side by side on all tokens and on those kept. As long as tokens are left of these,
it does the same on both. At the cut a rule that needs a token fails, and one that does not ends
there, whatever it goes on to on the other side.
-/

namespace ConfigExpr

/-- What stands after the tokens that are kept: no token, or an end mark. -/
inductive NoMore : List Spanned → Prop where
  | nil : NoMore []
  | eof {z : Spanned} : z.token = .eof → NoMore [z]

/-- The place of the first token, or the given one where there is none. -/
def placeOf (tail : List Spanned) (none : Span) : Span :=
  match tail with
  | [] => none
  | z :: _ => z.span

/-- The error of a parser that needs more than the tokens that are kept. -/
def cutError (tail kept : List Spanned) : ParseError :=
  match kept.getLast?.filter (·.token.isKeyword .letWord) with
  | some word => ⟨.expectedBinding, placeOf tail (.point word.span.stop)⟩
  | none => ⟨.unexpectedEnd, placeOf tail (.point 0)⟩

theorem Token.isKeyword_of_isMark {t : Token} {m : Mark} (h : t.isMark m = true) (w : Keyword) :
    t.isKeyword w = false := by
  cases t with
  | mark => rfl
  | _ => cases h

theorem Token.isMark_of_eof {t : Token} (h : t = .eof) (m : Mark) : t.isMark m = false := by
  rw [h]
  rfl

section

variable (tail : List Spanned)

theorem cutError_cons {t : Spanned} (h : t.token.isKeyword .letWord = false)
    (ts : List Spanned) : cutError tail (t :: ts) = cutError tail ts := by
  cases ts with
  | nil => simp only [cutError, List.getLast?_singleton, Option.filter, h]; rfl
  | cons u ts => rw [cutError, cutError, List.getLast?_cons_cons]

theorem cutError_mark {t : Spanned} {m : Mark} (h : t.token.isMark m = true) (ts : List Spanned) :
    cutError tail (t :: ts) = cutError tail ts :=
  cutError_cons tail (Token.isKeyword_of_isMark h _) ts

theorem cutError_cons_cons (t u : Spanned) (ts : List Spanned) :
    cutError tail (t :: u :: ts) = cutError tail (u :: ts) := by
  rw [cutError, cutError, List.getLast?_cons_cons]

theorem cutError_singleton {t : Spanned} (h : t.token.isKeyword .letWord = true) :
    cutError tail [t] = ⟨.expectedBinding, placeOf tail (.point t.span.stop)⟩ := by
  simp only [cutError, List.getLast?_singleton, Option.filter, h, if_true]

end

theorem Spanned.weightAll_append (ts us : List Spanned) :
    weightAll (ts ++ us) = weightAll ts + weightAll us := by
  induction ts with
  | nil => exact (Nat.zero_add _).symm
  | cons t ts ih => simp only [List.cons_append, weightAll_cons, ih, Nat.add_assoc]

theorem Spanned.weightAll_lt_of_append {ts us rest : List Spanned}
    (h : weightAll (ts ++ rest) < weightAll (us ++ rest)) : weightAll ts < weightAll us := by
  rw [weightAll_append, weightAll_append] at h
  exact Nat.lt_of_add_lt_add_right h

/-- The outcomes of a parser on all tokens, the kept ones and the rest, and on those kept with the
tail after them. `early` says whether the form the parser reads has a shorter one. -/
inductive Outcome.Cut {α : Type} {m n : Nat} (early : Prop) (rest tail ts : List Spanned) :
    Outcome α m → Outcome α n → Prop where
  /-- The kept tokens hold all that is read. -/
  | same {value : α} (left : List Spanned) {lighter : Spanned.weightAll (left ++ rest) < m}
    {lighter' : Spanned.weightAll (left ++ tail) < n} :
    cutError tail ts = cutError tail left →
    Cut early rest tail ts (.ok value (left ++ rest) lighter) (.ok value (left ++ tail) lighter')
  /-- A shorter form ends at the cut. -/
  | short {o : Outcome α m} {value : α} {lighter : Spanned.weightAll tail < n} :
    early → cutError tail ts = cutError tail [] →
    Cut early rest tail ts o (.ok value tail lighter)
  | incomplete {o : Outcome α m} {f : Failure} :
    f.error = cutError tail ts → Cut early rest tail ts o (.error f)
  | failed {f : Failure} {o : Outcome α n} : Cut early rest tail ts (.error f) o

namespace Outcome.Cut

variable {α β : Type} {m n m' n' : Nat} {early : Prop} {rest tail ts us : List Spanned}
  {o : Outcome α m} {o' : Outcome α n}

theorem of_eq (h : cutError tail ts = cutError tail us) (hcut : o.Cut early rest tail us o') :
    o.Cut early rest tail ts o' := by
  cases hcut with
  | same left hleft => exact .same left (h.trans hleft)
  | short hearly hnil => exact .short hearly (h.trans hnil)
  | incomplete hf => exact .incomplete (hf.trans h.symm)
  | failed => exact .failed

theorem mono {early' : Prop} (h : o.Cut early rest tail ts o') (hearly : early → early') :
    o.Cut early' rest tail ts o' := by
  cases h with
  | same left hleft => exact .same left hleft
  | short h hnil => exact .short (hearly h) hnil
  | incomplete hf => exact .incomplete hf
  | failed => exact .failed

theorem map (h : o.Cut early rest tail ts o') (k : α → β) :
    (o.map k).Cut early rest tail ts (o'.map k) := by
  cases h with
  | same left hleft => exact .same left hleft
  | short hearly hnil => exact .short hearly hnil
  | incomplete hf => exact .incomplete hf
  | failed => exact .failed

theorem weaken {hm : m < m'} {hn : n < n'} (h : o.Cut early rest tail ts o') :
    (o.weaken hm).Cut early rest tail ts (o'.weaken hn) := by
  cases h with
  | same left hleft => exact .same left hleft
  | short hearly hnil => exact .short hearly hnil
  | incomplete hf => exact .incomplete hf
  | failed => exact .failed

/-- What holds after errors, at the cut whatever the other side has, and where a token is left. -/
@[elab_as_elim]
theorem elim {o : Outcome α (Spanned.weightAll (ts ++ rest))}
    {o' : Outcome α (Spanned.weightAll (ts ++ tail))}
    {C : Outcome α (Spanned.weightAll (ts ++ rest)) → Outcome α (Spanned.weightAll (ts ++ tail)) →
      Prop} (h : o.Cut early rest tail ts o')
    (failed : ∀ f o', C (.error f) o')
    (incomplete : ∀ o f, f.error = cutError tail ts → C o (.error f))
    (ended : ∀ o value lighter, cutError tail ts = cutError tail [] → C o (.ok value tail lighter))
    (more : ∀ value t left lighter lighter',
      Spanned.weightAll (t :: left) < Spanned.weightAll ts →
      cutError tail ts = cutError tail (t :: left) →
      C (.ok value (t :: (left ++ rest)) lighter) (.ok value (t :: (left ++ tail)) lighter')) :
    C o o' := by
  cases h with
  | same left hleft =>
    cases left with
    | nil => exact ended _ _ _ hleft
    | cons t left => exact more _ t left _ _ (Spanned.weightAll_lt_of_append ‹_›) hleft
  | short _ hnil => exact ended _ _ _ hnil
  | incomplete hf => exact incomplete _ _ hf
  | failed => exact failed _ _

end Outcome.Cut

open Outcome (Cut)

/-! ## At the cut -/

/-- A parser fails where the input ends. -/
def Outcome.Ends {α : Type} {n : Nat} (tail : List Spanned) (o : Outcome α n) : Prop :=
  ∃ f, o = .error f ∧ f.error = cutError tail []

section

variable {tail : List Spanned}

theorem Failure.error_unexpected {z : Spanned} (hz : z.token = .eof) (rest : List Spanned)
    (expected : List Expected) : (unexpected z rest expected).error = cutError [z] [] := by
  rw [unexpected, hz]
  rfl

theorem Outcome.Ends.map {α β : Type} {n : Nat} {o : Outcome α n} (h : o.Ends tail) (k : α → β) :
    (o.map k).Ends tail := by
  obtain ⟨f, rfl, hf⟩ := h
  exact ⟨f, rfl, hf⟩

theorem Outcome.Ends.weaken {α : Type} {m n : Nat} {hm : m < n} {o : Outcome α m}
    (h : o.Ends tail) : (o.weaken hm).Ends tail := by
  obtain ⟨f, rfl, hf⟩ := h
  exact ⟨f, rfl, hf⟩

theorem Outcome.Ends.cut {α : Type} {m n : Nat} {early : Prop} {rest ts : List Spanned}
    {o' : Outcome α n} (h : o'.Ends tail) (hts : cutError tail ts = cutError tail [])
    (o : Outcome α m) : o.Cut early rest tail ts o' := by
  obtain ⟨f, rfl, hf⟩ := h
  exact .incomplete (hf.trans hts.symm)

variable (htail : NoMore tail)

include htail

theorem ends_expectMark (m : Mark) : (expectMark m tail).Ends tail := by
  cases htail with
  | nil => exact ⟨_, rfl, rfl⟩
  | eof hz => exact ⟨_, by rw [expectMark, hz]; rfl, Failure.error_unexpected hz [] _⟩

theorem ends_expectKeyword (w : Keyword) : (expectKeyword w tail).Ends tail := by
  cases htail with
  | nil => exact ⟨_, rfl, rfl⟩
  | eof hz => exact ⟨_, by rw [expectKeyword, hz]; rfl, Failure.error_unexpected hz [] _⟩

theorem ends_expectName : (expectName tail).Ends tail := by
  cases htail with
  | nil => exact ⟨_, rfl, rfl⟩
  | eof hz => exact ⟨_, by rw [expectName, hz], rfl⟩

theorem ends_parse : (Expr.parse tail).Ends tail := by
  cases htail with
  | nil => exact ⟨_, by rw [Expr.parse], rfl⟩
  | @eof z hz =>
    obtain ⟨_, span⟩ := z
    cases hz
    refine ⟨.unexpected ⟨.eof, span⟩ [] [.expression], ?_, Failure.error_unexpected rfl [] _⟩
    rw [Expr.parse, Expr.parsePrimary]
    simp [Token.isKeyword]

theorem ends_parseSequence (close : Mark) : (Expr.parseSequence close tail).Ends tail := by
  obtain ⟨f, hitem, hf⟩ := ends_parse htail
  cases htail with
  | nil => exact ⟨_, by rw [Expr.parseSequence], rfl⟩
  | @eof z hz =>
    refine ⟨f, ?_, hf⟩
    rw [Expr.parseSequence, Token.isMark_of_eof hz, hitem]
    rfl

theorem ends_parseAll_entries : (Entry.parseAll tail).Ends tail := by
  cases htail with
  | nil => exact ⟨_, by rw [Entry.parseAll], rfl⟩
  | @eof z hz =>
    obtain ⟨_, span⟩ := z
    cases hz
    refine ⟨.unexpected ⟨.eof, span⟩ [] [.key, .mark .closeBrace], ?_,
      Failure.error_unexpected rfl [] _⟩
    rw [Entry.parseAll, Name.parseKey]
    rfl

theorem skipComma_tail : skipComma tail = tail := by
  cases htail with
  | nil => rfl
  | eof hz => rw [skipComma, hz]; rfl

theorem ends_parseParen (start : Nat) : (Expr.parseParen start tail).Ends tail := by
  obtain ⟨f, he, hf⟩ := ends_parse htail
  have hform : ParenForm.ofTokens tail = .group := by
    cases htail with
    | nil => rfl
    | eof hz => simp [ParenForm.ofTokens, hz]
  refine ⟨f, ?_, hf⟩
  rw [Expr.parseParen, hform, he]

theorem ends_parseLambda (start : Nat) {names : List Name}
    (hnames : Name.repeated? [] names = none) :
    (Expr.parseLambda start names tail).Ends tail := by
  obtain ⟨f, harrow, hf⟩ := ends_expectMark htail .arrow
  refine ⟨f, ?_, hf⟩
  rw [Expr.parseLambda, hnames, harrow]

/-- No binding follows. -/
theorem parseAll_bindings_tail {n : Nat} (h : Spanned.weightAll tail < n) :
    Binding.parseAll tail h = .ok [] tail h := by
  cases htail with
  | nil => rw [Binding.parseAll]
  | eof hz => rw [Binding.parseAll, hz]

/-- No operator follows. -/
theorem parsePostfix_tail {n : Nat} (e : Expr) (h : Spanned.weightAll tail < n) :
    Expr.parsePostfix e tail h = .ok e tail h := by
  cases htail with
  | nil => rw [Expr.parsePostfix]
  | eof hz => rw [Expr.parsePostfix, hz]

end

/-! ## Single tokens -/

section

variable {tail : List Spanned} (htail : NoMore tail) (rest : List Spanned)

include htail

theorem cut_expectMark (m : Mark) (ts : List Spanned) :
    (expectMark m (ts ++ rest)).Cut False rest tail ts (expectMark m (ts ++ tail)) := by
  cases ts with
  | nil => exact (ends_expectMark htail m).cut rfl _
  | cons t ts =>
    simp only [List.cons_append, expectMark]
    split
    next hm => exact .same ts (cutError_mark tail hm ts)
    next => exact .failed

theorem cut_expectKeyword {w : Keyword} (hw : w ≠ .letWord) (ts : List Spanned) :
    (expectKeyword w (ts ++ rest)).Cut False rest tail ts (expectKeyword w (ts ++ tail)) := by
  cases ts with
  | nil => exact (ends_expectKeyword htail w).cut rfl _
  | cons t ts =>
    simp only [List.cons_append, expectKeyword]
    split
    next ht =>
      obtain ⟨token, span⟩ := t
      cases token with
      | keyword other =>
        refine .same ts (cutError_cons tail ?_ ts)
        simp only [Token.isKeyword, decide_eq_true_eq] at ht ⊢
        exact decide_eq_false fun hlet => hw (ht.trans hlet.symm)
      | _ => cases ht
    next => exact .failed

theorem cut_expectName (ts : List Spanned) :
    (expectName (ts ++ rest)).Cut False rest tail ts (expectName (ts ++ tail)) := by
  cases ts with
  | nil => exact (ends_expectName htail).cut rfl _
  | cons t ts =>
    obtain ⟨token, span⟩ := t
    cases token with
    | ident => exact .same ts (cutError_cons tail rfl ts)
    | _ => exact .failed

theorem cut_parameters : ∀ ts : List Spanned,
    (parameters (ts ++ rest)).Cut False rest tail ts (parameters (ts ++ tail))
  | ts => by
    rw [parameters, parameters]
    refine (cut_expectName htail rest ts).elim (fun _ _ => .failed) (fun _ _ => .incomplete)
      (fun o name _ hts => ?_) fun name t left _ _ hlt hts => ?_
    · refine .of_eq hts ?_
      cases htail with
      | nil => exact .incomplete rfl
      | @eof z hz =>
        simp only [Token.isMark_of_eof hz]
        exact .incomplete (Failure.error_unexpected hz [] _)
    · refine .of_eq hts ?_
      dsimp only
      split
      next hcomma =>
        have hleft := Nat.lt_trans (t.weightAll_lt_cons left) hlt
        refine .of_eq (cutError_mark tail hcomma left) ?_
        exact .weaken (.map (cut_parameters left) _)
      split
      next hclose => exact .same left (cutError_mark tail hclose left)
      next => exact .failed
termination_by ts => Spanned.weightAll ts

end

/-! ## The rules -/

/-- The parser of expressions at the cut of some tokens. -/
def Expr.ParseCut (rest tail ts : List Spanned) : Prop :=
  (Expr.parse (ts ++ rest)).Cut True rest tail ts (Expr.parse (ts ++ tail))

theorem skipComma_append (t : Spanned) (ts us : List Spanned) :
    skipComma (t :: ts ++ us) = skipComma (t :: ts) ++ us := by
  rw [List.cons_append, skipComma, skipComma]
  split <;> rfl

theorem cutError_skipComma (tail ts : List Spanned) :
    cutError tail ts = cutError tail (skipComma ts) := by
  cases ts with
  | nil => rfl
  | cons t ts =>
    rw [skipComma]
    split
    next hcomma => exact cutError_mark tail hcomma ts
    next => rfl

/-- What an opening parenthesis begins shows in the kept tokens, unless the only one is a name. -/
theorem ofTokens_append {t : Spanned} {ts : List Spanned}
    (h : ts = [] → ∀ name, t.token ≠ .ident name) (us : List Spanned) :
    ParenForm.ofTokens (t :: ts ++ us) = ParenForm.ofTokens (t :: ts) := by
  obtain ⟨token, span⟩ := t
  cases ts with
  | nil =>
    cases token with
    | ident name => exact absurd rfl (h rfl name)
    | mark m => cases m <;> rfl
    | _ => rfl
  | cons u ts =>
    cases token with
    | mark m => cases m <;> rfl
    | _ => rfl

/-- Without a binding nothing is taken. -/
theorem returns_parseAll_bindings_empty {n : Nat} {ts left : List Spanned}
    {h : Spanned.weightAll ts < n} (hreturns : (Binding.parseAll ts h).Returns [] left) :
    ts = left := by
  cases ts with
  | nil => exact (returns_parseAll_bindings_nil.1 hreturns).2
  | cons t ts =>
    have hcases := returns_parseAll_bindings.1 hreturns
    split at hcases
    · obtain ⟨_, _, _, _, _, _, _, _, _, ⟨⟩⟩ := hcases
    · exact hcases.2

/-- Whether a token is a key, and which, does not depend on the tokens after it. -/
theorem Name.parseKey_cases (t : Spanned) :
    (∀ ts, ∃ f, Name.parseKey t ts = .error f) ∨
      t.token.isKeyword .letWord = false ∧ ∃ key, ∀ ts, Name.parseKey t ts = .ok key := by
  cases h : Name.parseKey t [] with
  | error f =>
    refine .inl fun ts => ?_
    cases hts : Name.parseKey t ts with
    | error f => exact ⟨f, rfl⟩
    | ok key =>
      have hkey : Name.parseKey t [] = .ok key :=
        parseKey_eq_ok_iff.2 (parseKey_eq_ok_iff.1 hts)
      cases h.symm.trans hkey
  | ok key =>
    have hkey := parseKey_eq_ok_iff.1 h
    refine .inr ⟨?_, key, fun ts => parseKey_eq_ok_iff.2 hkey⟩
    rcases hkey with ⟨ht, -⟩ | ⟨_, _, ht, -⟩ <;> rw [ht] <;> rfl

section

variable {rest tail : List Spanned} (htail : NoMore tail) {n : Nat}
  (ih : ∀ {us}, Spanned.weightAll us < n → Expr.ParseCut rest tail us)

include htail ih

theorem cut_parseSequence (close : Mark) : ∀ ts : List Spanned, Spanned.weightAll ts < n →
    (Expr.parseSequence close (ts ++ rest)).Cut False rest tail ts
      (Expr.parseSequence close (ts ++ tail))
  | [], _ => (ends_parseSequence htail close).cut rfl _
  | t :: ts, hn => by
    have hitem : (Expr.parse (t :: (ts ++ rest))).Cut True rest tail (t :: ts)
      (Expr.parse (t :: (ts ++ tail))) := ih hn
    show (Expr.parseSequence close (t :: (ts ++ rest))).Cut False rest tail (t :: ts)
      (Expr.parseSequence close (t :: (ts ++ tail)))
    rw [Expr.parseSequence, Expr.parseSequence]
    split
    next hclose => exact .same ts (cutError_mark tail hclose ts)
    refine hitem.elim (fun _ _ => .failed) (fun _ _ => .incomplete)
      (fun o item _ hts => ?_) fun item u left _ _ hlt hts => ?_
    · refine .of_eq hts ?_
      cases htail with
      | nil => exact .incomplete rfl
      | @eof z hz =>
        simp only [Token.isMark_of_eof hz]
        exact .incomplete (Failure.error_unexpected hz [] _)
    · refine .of_eq hts ?_
      dsimp only
      split
      next hcomma =>
        have hleft := Nat.lt_trans (u.weightAll_lt_cons left) hlt
        refine .of_eq (cutError_mark tail hcomma left) ?_
        exact .weaken (.map (cut_parseSequence close left (Nat.lt_trans hleft hn)) _)
      split
      next hclose => exact .same left (cutError_mark tail hclose left)
      next => exact .failed
termination_by ts => Spanned.weightAll ts

theorem cut_parseAll_entries : ∀ ts : List Spanned, Spanned.weightAll ts < n →
    (Entry.parseAll (ts ++ rest)).Cut False rest tail ts (Entry.parseAll (ts ++ tail))
  | [], _ => (ends_parseAll_entries htail).cut rfl _
  | t :: ts, hn => by
    show (Entry.parseAll (t :: (ts ++ rest))).Cut False rest tail (t :: ts)
      (Entry.parseAll (t :: (ts ++ tail)))
    rw [Entry.parseAll, Entry.parseAll]
    split
    next hclose => exact .same ts (cutError_mark tail hclose ts)
    rcases Name.parseKey_cases t with herror | ⟨ht, key, hkey⟩
    · obtain ⟨f, hf⟩ := herror (ts ++ rest)
      rw [hf]
      exact .failed
    rw [hkey, hkey]
    refine .of_eq (cutError_cons tail ht ts) ?_
    dsimp only
    refine (cut_expectMark htail rest .colon ts).elim (fun _ _ => .failed)
      (fun _ _ => .incomplete) (fun o _ _ hts => ?_) fun _ u left _ _ hlt hts => ?_
    · obtain ⟨f, hvalue, hf⟩ := ends_parse htail
      simp only [hvalue]
      exact .incomplete (hf.trans hts.symm)
    have hcolon := Nat.lt_trans hlt (t.weightAll_lt_cons ts)
    refine .of_eq hts ?_
    have hvalue : (Expr.parse (u :: (left ++ rest))).Cut True rest tail (u :: left)
      (Expr.parse (u :: (left ++ tail))) := ih (Nat.lt_trans hcolon hn)
    dsimp only
    refine hvalue.elim (fun _ _ => .failed) (fun _ _ => .incomplete)
      (fun o value _ hleft => ?_) fun value v more _ _ hlt hleft => ?_
    · have hothers : (Entry.parseAll (skipComma tail)).Ends tail := by
        rw [skipComma_tail htail]
        exact ends_parseAll_entries htail
      exact (hothers.map _).weaken.cut hleft _
    have hmore := Nat.lt_of_le_of_lt (weightAll_skipComma_le (v :: more)) (Nat.lt_trans hlt hcolon)
    have hothers := cut_parseAll_entries _ (Nat.lt_trans hmore hn)
    rw [← skipComma_append, ← skipComma_append] at hothers
    exact .of_eq (hleft.trans (cutError_skipComma tail (v :: more))) (.weaken (.map hothers _))
termination_by ts => Spanned.weightAll ts

theorem cut_parseAll_bindings {m m' : Nat} : ∀ (ts : List Spanned)
    {h : Spanned.weightAll (ts ++ rest) < m} {h' : Spanned.weightAll (ts ++ tail) < m'},
    Spanned.weightAll ts < n →
    (Binding.parseAll (ts ++ rest) h).Cut True rest tail ts (Binding.parseAll (ts ++ tail) h')
  | [], h, h', _ => by
    show (Binding.parseAll rest h).Cut True rest tail [] (Binding.parseAll tail h')
    rw [parseAll_bindings_tail htail]
    exact .short trivial rfl
  | t :: ts, h, h', hn => by
    have hts := Nat.lt_trans (t.weightAll_lt_cons ts) hn
    show (Binding.parseAll (t :: (ts ++ rest)) h).Cut True rest tail (t :: ts)
      (Binding.parseAll (t :: (ts ++ tail)) h')
    rw [Binding.parseAll, Binding.parseAll]
    obtain ⟨token, span⟩ := t
    cases token with
    | ident text =>
      refine .of_eq (cutError_cons tail rfl ts) ?_
      dsimp only
      refine (cut_expectMark htail rest .equals ts).elim (fun _ _ => .failed)
        (fun _ _ => .incomplete) (fun o _ _ hleft => ?_) fun _ u left _ _ hequals hleft => ?_
      · obtain ⟨f, hvalue, hf⟩ := ends_parse htail
        simp only [hvalue]
        exact .incomplete (hf.trans hleft.symm)
      have hvalue : (Expr.parse (u :: (left ++ rest))).Cut True rest tail (u :: left)
        (Expr.parse (u :: (left ++ tail))) := ih (Nat.lt_trans hequals hts)
      refine .of_eq hleft ?_
      dsimp only
      refine hvalue.elim (fun _ _ => .failed) (fun _ _ => .incomplete)
        (fun o value _ hmore => ?_) fun value v more _ _ hvalue hmore => ?_
      · simp only [parseAll_bindings_tail htail]
        exact .short trivial hmore
      have hlt := Nat.lt_trans hvalue hequals
      exact .of_eq hmore (.map (cut_parseAll_bindings (v :: more) (Nat.lt_trans hlt hts)) _)
    | _ => exact .same (_ :: ts) rfl
termination_by ts => Spanned.weightAll ts
decreasing_by exact Nat.lt_trans hlt (Spanned.weightAll_lt_cons _ ts)

theorem cut_parseLambda {start : Nat} {names : List Name} (ts : List Spanned)
    (hn : Spanned.weightAll ts < n) :
    (Expr.parseLambda start names (ts ++ rest)).Cut True rest tail ts
      (Expr.parseLambda start names (ts ++ tail)) := by
  rw [Expr.parseLambda, Expr.parseLambda]
  cases Name.repeated? [] names with
  | some name => exact .failed
  | none =>
    dsimp only
    refine (cut_expectMark htail rest .arrow ts).elim (fun _ _ => .failed)
      (fun _ _ => .incomplete) (fun o _ _ hts => ?_) fun _ u left _ _ hlt hts => ?_
    · exact (ends_parse htail).map _ |>.weaken.cut hts _
    · exact .of_eq hts (.weaken (.map (ih (Nat.lt_trans hlt hn)) _))

theorem cut_parseLet {t : Spanned} {ts : List Spanned} (ht : t.token.isKeyword .letWord = true)
    (hn : Spanned.weightAll (t :: ts) ≤ n) :
    (Expr.parseLet (t :: (ts ++ rest))).Cut True rest tail (t :: ts)
      (Expr.parseLet (t :: (ts ++ tail))) := by
  have hword : ∀ us, expectKeyword .letWord (t :: us) = .ok t.span us (t.weightAll_lt_cons us) :=
    fun us => by rw [expectKeyword, if_pos ht]
  rw [Expr.parseLet, Expr.parseLet, hword, hword]
  dsimp only
  cases ts with
  | nil =>
    simp only [List.nil_append, parseAll_bindings_tail htail]
    refine .incomplete ?_
    rw [cutError_singleton tail ht]
    cases htail <;> rfl
  | cons u us =>
    refine .of_eq (cutError_cons_cons tail t u us) ?_
    have hts := Nat.lt_of_lt_of_le (t.weightAll_lt_cons (u :: us)) hn
    have hbindings : (Binding.parseAll (u :: us ++ rest) (t.weightAll_lt_cons _)).Cut True rest tail
      (u :: us) (Binding.parseAll (u :: us ++ tail) (t.weightAll_lt_cons _)) :=
      cut_parseAll_bindings htail ih (u :: us) hts
    generalize Binding.parseAll (u :: us ++ rest) _ = o at hbindings ⊢
    generalize hcut : Binding.parseAll (u :: us ++ tail) _ = o' at hbindings ⊢
    cases hbindings with
    | failed => exact .failed
    | incomplete hf => exact .incomplete hf
    | @same bindings left lighter _ hleft =>
      cases bindings with
      | nil => exact .failed
      | cons b bindings =>
        refine .of_eq hleft ?_
        have hword : Spanned.weightAll left < Spanned.weightAll (t :: u :: us) :=
          Spanned.weightAll_lt_of_append lighter
        have hleft := Nat.lt_of_lt_of_le hword hn
        dsimp only
        refine (cut_expectKeyword htail rest (w := .inWord) (by decide) left).elim
          (fun _ _ => .failed) (fun _ _ => .incomplete) (fun o _ _ hin => ?_)
          fun _ v more _ _ hlt hin => ?_
        · exact (ends_parse htail).map _ |>.weaken.cut hin _
        · exact .of_eq hin (.weaken (.map (ih (Nat.lt_trans hlt hleft)) _))
    | @short _ bindings lighter _ hleft =>
      cases bindings with
      | nil =>
        have hnil := congrArg List.length (returns_parseAll_bindings_empty ⟨_, hcut⟩)
        simp at hnil
        omega
      | cons b bindings =>
        obtain ⟨f, hin, hf⟩ := ends_expectKeyword htail .inWord
        simp only [hin]
        exact .incomplete (hf.trans hleft.symm)

omit ih in
/-- A name after an opening parenthesis may stand in a group. -/
theorem cut_parseParen_name {m : Nat} {t : Spanned} {name : String} (ht : t.token = .ident name)
    (start : Nat) (o : Outcome Expr m) :
    o.Cut True rest tail [t] (Expr.parseParen start ([t] ++ tail)) := by
  obtain ⟨_, span⟩ := t
  cases ht
  have hform : ParenForm.ofTokens ([⟨.ident name, span⟩] ++ tail) = .group := by
    cases htail with
    | nil => rfl
    | eof hz => simp [ParenForm.ofTokens, hz, Token.isMark]
  have hname : (Expr.parse (⟨.ident name, span⟩ :: tail)).Returns (.name ⟨name, span⟩) tail := by
    rw [Expr.parse, Expr.parsePrimary]
    exact ⟨_, parsePostfix_tail htail _ _⟩
  obtain ⟨_, hname⟩ := hname
  have hends : (Expr.parseParen start ([⟨.ident name, span⟩] ++ tail)).Ends tail := by
    rw [Expr.parseParen, hform, List.singleton_append, hname]
    exact ((ends_expectMark htail .closeParen).map _).weaken
  exact hends.cut (cutError_cons tail rfl []) o

theorem cut_parseParen {start : Nat} {ts : List Spanned} (hn : Spanned.weightAll ts < n) :
    (Expr.parseParen start (ts ++ rest)).Cut True rest tail ts
      (Expr.parseParen start (ts ++ tail)) := by
  cases ts with
  | nil => exact (ends_parseParen htail start).cut rfl _
  | cons t ts =>
    by_cases hname : ts = [] ∧ ∃ name, t.token = .ident name
    · obtain ⟨rfl, name, ht⟩ := hname
      exact cut_parseParen_name htail ht start _
    have hform : ∀ us, ParenForm.ofTokens (t :: ts ++ us) = ParenForm.ofTokens (t :: ts) :=
      ofTokens_append fun hts name ht => hname ⟨hts, name, ht⟩
    rw [Expr.parseParen, Expr.parseParen, hform, hform]
    cases ParenForm.ofTokens (t :: ts) with
    | noParameters =>
      dsimp only
      refine (cut_expectMark htail rest .closeParen (t :: ts)).elim
        (fun _ _ => .failed) (fun _ _ => .incomplete) (fun o _ _ hts => ?_)
        fun _ u left _ _ hlt hts => ?_
      · exact (ends_parseLambda htail start rfl).weaken.cut hts _
      · exact .of_eq hts (.weaken (cut_parseLambda htail ih (u :: left) (Nat.lt_trans hlt hn)))
    | parameterList =>
      dsimp only
      have hnames := cut_parameters htail rest (t :: ts)
      generalize parameters (t :: ts ++ rest) = o at hnames ⊢
      generalize parameters (t :: ts ++ tail) = o' at hnames ⊢
      cases hnames with
      | failed => exact .failed
      | incomplete hf => exact .incomplete hf
      | short hearly => exact hearly.elim
      | @same names left lighter _ hts =>
        have hlt : Spanned.weightAll left < Spanned.weightAll (t :: ts) :=
          Spanned.weightAll_lt_of_append lighter
        exact .of_eq hts (.weaken (cut_parseLambda htail ih left (Nat.lt_trans hlt hn)))
    | singleName =>
      dsimp only
      refine (cut_expectName htail rest (t :: ts)).elim (fun _ _ => .failed)
        (fun _ _ => .incomplete) (fun o _ _ hts => ?_) fun name u left _ _ hname hts => ?_
      · obtain ⟨f, hclose, hf⟩ := ends_expectMark htail .closeParen
        simp only [hclose]
        exact .incomplete (hf.trans hts.symm)
      refine .of_eq hts ?_
      dsimp only
      refine (cut_expectMark htail rest .closeParen (u :: left)).elim
        (fun _ _ => .failed) (fun _ _ => .incomplete) (fun o _ _ hclose => ?_)
        fun _ v more _ _ hlt hclose => ?_
      · have harrow : beginsWith .arrow tail = false := by
          cases htail with
          | nil => rfl
          | eof hz => rw [beginsWith, hz]; rfl
        simp only [harrow]
        exact .short trivial hclose
      refine .of_eq hclose ?_
      have hbegins : ∀ us, beginsWith .arrow (v :: us) = v.token.isMark .arrow := fun _ => rfl
      simp only [hbegins]
      split
      · have hmore := Nat.lt_trans (Nat.lt_trans hlt hname) hn
        exact .weaken (cut_parseLambda htail ih (v :: more) hmore)
      · exact .same (v :: more) rfl
    | group =>
      dsimp only
      refine (ih hn).elim (fun _ _ => .failed) (fun _ _ => .incomplete)
        (fun o _ _ hts => ?_) fun e u left _ _ _ hts => ?_
      · exact ((ends_expectMark htail .closeParen).map _).weaken.cut hts _
      · have hclose := (cut_expectMark htail rest .closeParen (u :: left)).map fun _ => e
        exact .of_eq hts (.weaken (hclose.mono False.elim))

theorem cut_parsePostfix {m m' : Nat} : ∀ (ts : List Spanned) {e : Expr}
    {h : Spanned.weightAll (ts ++ rest) < m} {h' : Spanned.weightAll (ts ++ tail) < m'},
    Spanned.weightAll ts < n →
    (Expr.parsePostfix e (ts ++ rest) h).Cut True rest tail ts (Expr.parsePostfix e (ts ++ tail) h')
  | [], e, h, h', _ => by
    show (Expr.parsePostfix e rest h).Cut True rest tail [] (Expr.parsePostfix e tail h')
    rw [parsePostfix_tail htail]
    exact .short trivial rfl
  | t :: ts, e, h, h', hn => by
    have hts := Nat.lt_trans (t.weightAll_lt_cons ts) hn
    show (Expr.parsePostfix e (t :: (ts ++ rest)) h).Cut True rest tail (t :: ts)
      (Expr.parsePostfix e (t :: (ts ++ tail)) h')
    rw [Expr.parsePostfix, Expr.parsePostfix]
    obtain ⟨token, span⟩ := t
    cases token with
    | mark mark =>
      refine .of_eq (cutError_cons tail rfl ts) ?_
      cases mark with
      | dot =>
        dsimp only
        refine (cut_expectName htail rest ts).elim (fun _ _ => .failed)
          (fun _ _ => .incomplete) (fun o name _ hname => ?_)
          fun name u left _ _ hafter hname => ?_
        · refine .of_eq hname ?_
          cases htail with
          | nil => exact .short trivial rfl
          | @eof z hz =>
            simp only [Token.isMark_of_eof hz, parsePostfix_tail (.eof hz)]
            exact .short trivial rfl
        refine .of_eq hname ?_
        dsimp only
        split
        next hparen =>
          have hleft := Nat.lt_trans (u.weightAll_lt_cons left) hafter
          refine .of_eq (cutError_mark tail hparen left) ?_
          refine (cut_parseSequence htail ih .closeParen left (Nat.lt_trans hleft hts)).elim
            (fun _ _ => .failed) (fun _ _ => .incomplete) (fun o r _ harguments => ?_)
            fun r v more _ _ hmore harguments => ?_
          · simp only [parsePostfix_tail htail]
            exact .short trivial harguments
          have hlt := Nat.lt_trans hmore hleft
          exact .of_eq harguments (cut_parsePostfix (v :: more) (Nat.lt_trans hlt hts))
        next =>
          have hlt := hafter
          exact cut_parsePostfix (u :: left) (Nat.lt_trans hlt hts)
      | openBracket =>
        dsimp only
        refine (ih hts).elim (fun _ _ => .failed)
          (fun _ _ => .incomplete) (fun o key _ hkey => ?_)
          fun key u left _ _ hafter hkey => ?_
        · obtain ⟨f, hclose, hf⟩ := ends_expectMark htail .closeBracket
          simp only [hclose]
          exact .incomplete (hf.trans hkey.symm)
        refine .of_eq hkey ?_
        dsimp only
        refine (cut_expectMark htail rest .closeBracket (u :: left)).elim
          (fun _ _ => .failed) (fun _ _ => .incomplete) (fun o _ _ hclose => ?_)
          fun _ v more _ _ hmore hclose => ?_
        · simp only [parsePostfix_tail htail]
          exact .short trivial hclose
        have hlt := Nat.lt_trans hmore hafter
        exact .of_eq hclose (cut_parsePostfix (v :: more) (Nat.lt_trans hlt hts))
      | openParen =>
        dsimp only
        refine (cut_parseSequence htail ih .closeParen ts hts).elim
          (fun _ _ => .failed) (fun _ _ => .incomplete) (fun o r _ harguments => ?_)
          fun r u left _ _ hlt harguments => ?_
        · simp only [parsePostfix_tail htail]
          exact .short trivial harguments
        exact .of_eq harguments (cut_parsePostfix (u :: left) (Nat.lt_trans hlt hts))
      | _ => exact .same (_ :: ts) (cutError_cons tail rfl ts).symm
    | _ => exact .same (_ :: ts) rfl
termination_by ts => Spanned.weightAll ts
decreasing_by all_goals exact Nat.lt_trans hlt (Spanned.weightAll_lt_cons _ ts)

theorem cut_parseList {ts : List Spanned} (hn : Spanned.weightAll ts ≤ n) :
    (Expr.parseList (ts ++ rest)).Cut False rest tail ts (Expr.parseList (ts ++ tail)) := by
  rw [Expr.parseList, Expr.parseList]
  refine (cut_expectMark htail rest .openBracket ts).elim (fun _ _ => .failed)
    (fun _ _ => .incomplete) (fun o _ _ hts => ?_) fun _ u left _ _ hlt hts => ?_
  · exact ((ends_parseSequence htail .closeBracket).map _).weaken.cut hts _
  · have hitems := cut_parseSequence htail ih .closeBracket (u :: left) (Nat.lt_of_lt_of_le hlt hn)
    exact .of_eq hts (.weaken (.map hitems _))

theorem cut_parseMap {ts : List Spanned} (hn : Spanned.weightAll ts ≤ n) :
    (Expr.parseMap (ts ++ rest)).Cut False rest tail ts (Expr.parseMap (ts ++ tail)) := by
  rw [Expr.parseMap, Expr.parseMap]
  refine (cut_expectMark htail rest .openBrace ts).elim (fun _ _ => .failed)
    (fun _ _ => .incomplete) (fun o _ _ hts => ?_) fun _ u left _ _ hlt hts => ?_
  · exact ((ends_parseAll_entries htail).map _).weaken.cut hts _
  · have hentries := cut_parseAll_entries htail ih (u :: left) (Nat.lt_of_lt_of_le hlt hn)
    exact .of_eq hts (.weaken (.map hentries _))

theorem cut_parsePrimary {t : Spanned} {ts : List Spanned} (hn : Spanned.weightAll (t :: ts) ≤ n) :
    (Expr.parsePrimary (t :: (ts ++ rest))).Cut True rest tail (t :: ts)
      (Expr.parsePrimary (t :: (ts ++ tail))) := by
  have hts := Nat.lt_of_lt_of_le (t.weightAll_lt_cons ts) hn
  obtain ⟨token, span⟩ := t
  cases token with
  | int | float | ident =>
    rw [Expr.parsePrimary, Expr.parsePrimary]
    exact .same ts (cutError_cons tail rfl ts)
  | keyword w =>
    cases w with
    | trueWord | falseWord =>
      rw [Expr.parsePrimary, Expr.parsePrimary]
      exact .same ts (cutError_cons tail rfl ts)
    | _ =>
      rw [Expr.parsePrimary]
      exact .failed
  | string parts =>
    rw [Expr.parsePrimary, Expr.parsePrimary]
    dsimp only
    cases Segment.parseAll parts with
    | error e => exact .failed
    | ok segments => exact .same ts (cutError_cons tail rfl ts)
  | mark m =>
    cases m with
    | openBrace =>
      rw [Expr.parsePrimary, Expr.parsePrimary]
      · exact (cut_parseMap htail ih hn).mono False.elim
    | openBracket =>
      rw [Expr.parsePrimary, Expr.parsePrimary]
      · exact (cut_parseList htail ih hn).mono False.elim
    | openParen =>
      rw [Expr.parsePrimary, Expr.parsePrimary]
      · exact .of_eq (cutError_cons tail rfl ts) (.weaken (cut_parseParen htail ih hts))
    | _ =>
      rw [Expr.parsePrimary]
      exact .failed
  | _ =>
    rw [Expr.parsePrimary]
    exact .failed

end

/-- The parser reads the kept tokens as it reads all of them, until they end. -/
theorem Expr.parse_cut {tail : List Spanned} (htail : NoMore tail) (rest ts : List Spanned) :
    Expr.ParseCut rest tail ts := by
  cases ts with
  | nil => exact (ends_parse htail).cut rfl _
  | cons t ts =>
    have ih : ∀ {us}, Spanned.weightAll us < Spanned.weightAll (t :: ts) →
      Expr.ParseCut rest tail us := fun {us} _ => Expr.parse_cut htail rest us
    show (Expr.parse (t :: (ts ++ rest))).Cut True rest tail (t :: ts)
      (Expr.parse (t :: (ts ++ tail)))
    rw [Expr.parse, Expr.parse]
    split
    next hlet => exact cut_parseLet htail ih hlet (Nat.le_refl _)
    refine (cut_parsePrimary htail ih (Nat.le_refl _)).elim (fun _ _ => .failed)
      (fun _ _ => .incomplete) (fun o e _ hts => ?_) fun e u left _ _ hlt hts => ?_
    · simp only [parsePostfix_tail htail]
      exact .short trivial hts
    · exact .of_eq hts (cut_parsePostfix htail ih (u :: left) hlt)
termination_by Spanned.weightAll ts

/-! ## Programs -/

section

variable {rest tail ts left : List Spanned} {e : Expr}

/-- Where all tokens are an expression up to their end mark, which is not kept, the kept ones are
an expression, or the input ends too early. -/
theorem Expr.parseWhole_cut (htail : NoMore tail) (hended : Spanned.Ended (ts ++ rest))
    (hrest : rest ≠ []) (h : (Expr.parseWhole (ts ++ rest)).Returns e left) :
    tail ≠ [] ∧ (∃ q more, (Expr.parseWhole (ts ++ tail)).Returns q more) ∨
      ∃ f, Expr.parseWhole (ts ++ tail) = .error f ∧ f.error = cutError tail ts := by
  obtain ⟨after, s, he, hs⟩ := returns_parseWhole.1 h
  obtain ⟨stop, rfl, hstop, -⟩ := returns_expectEof.1 hs
  obtain ⟨⟨us, hsplit, -⟩, -⟩ := sound_parse _ hended.properList he
  -- The end mark that was read is the last token, so nothing kept is left before it.
  obtain rfl := (hsplit ▸ hended).nil_of_eof hstop
  rw [Expr.parseWhole.eq_def (ts ++ tail)]
  revert he
  refine (Expr.parse_cut htail rest ts).elim (fun _ _ he => ?_) (fun _ f hf _ => ?_)
    (fun _ q _ hts _ => ?_) (fun _ t more _ _ _ _ he => ?_)
  · exact absurd he Outcome.returns_error
  · exact .inr ⟨f, rfl, hf⟩
  · cases htail with
    | nil => exact .inr ⟨_, rfl, hts.symm⟩
    | @eof z hz =>
      have hend : (expectEof [z]).Returns z.span [] := returns_expectEof.2 ⟨z, rfl, hz, rfl⟩
      obtain ⟨_, hend⟩ := hend
      simp only [hend]
      exact .inl ⟨List.cons_ne_nil z [], q, [], _, rfl⟩
  · obtain ⟨-, hleft⟩ := Outcome.returns_ok.1 he
    have hnil : rest = [] := by
      have := congrArg List.length hleft
      simp at this
      exact this.2
    exact absurd hnil hrest

end

namespace Program

theorem ofTokens_of_returns {ts left : List Spanned} {e : Expr}
    (h : (Expr.parseWhole (withoutComments ts)).Returns e left) :
    ∃ p, ofTokens ⟨ts, none⟩ = .ok p := by
  obtain ⟨_, h⟩ := h
  exact ⟨_, by rw [ofTokens, h]⟩

theorem ofTokens_of_error {ts : List Spanned} {f : Failure}
    (h : Expr.parseWhole (withoutComments ts) = .error f) :
    ofTokens ⟨ts, none⟩ = .error f.error := by
  rw [ofTokens, h]

/-- The first tokens of a program and an end mark are a program or the input is reported to end
there too early; without the end mark they never are a program. -/
theorem incomplete_of_parse {source : String} {p : Program} (h : parse source = .ok p) :
    ∃ ts stop, withoutComments (Tokens.ofText source).tokens = ts ++ [stop] ∧ stop.token = .eof ∧
      ∀ k z, z.token = .eof →
        ((∃ q, ofTokens ⟨ts.take k ++ [z], none⟩ = .ok q) ∨
          ofTokens ⟨ts.take k ++ [z], none⟩ = .error (cutError [z] (ts.take k))) ∧
        ofTokens ⟨ts.take k, none⟩ = .error (cutError [] (ts.take k)) := by
  obtain ⟨left, hwhole⟩ := exists_parse_iff.1 ⟨p, h, rfl⟩
  have hended : Spanned.Ended (withoutComments (Tokens.ofText source).tokens) :=
    Cursor.ended_withoutComments (parseWhole_withoutComments hwhole)
  obtain ⟨ts, stop, hts, hstop, hproper⟩ := Spanned.ended_iff.1 hended
  refine ⟨ts, stop, hts, hstop, fun k z hz => ?_⟩
  have hsplit : ts ++ [stop] = ts.take k ++ (ts.drop k ++ [stop]) := by
    rw [← List.append_assoc, List.take_append_drop]
  rw [hts, hsplit] at hwhole hended
  have hkept : Spanned.ProperList (ts.take k) := fun t ht =>
    .inr (hproper t (List.mem_of_mem_take ht))
  have hmarked : Spanned.ProperList (ts.take k ++ [z]) := by
    refine fun t ht => (List.mem_append.1 ht).elim (hkept t) fun ht => .inl ?_
    rw [List.mem_singleton.1 ht, hz]
  have hcut {tail} (htail : NoMore tail) :=
    Expr.parseWhole_cut htail hended (by simp) hwhole
  constructor
  · rcases hcut (.eof hz) with ⟨-, q, more, hq⟩ | ⟨f, hf, herror⟩
    · exact .inl (ofTokens_of_returns (by rwa [withoutComments_of_proper hmarked]))
    · rw [← herror]
      exact .inr (ofTokens_of_error (by rwa [withoutComments_of_proper hmarked]))
  · rcases hcut .nil with ⟨hnil, -⟩ | ⟨f, hf, herror⟩
    · exact absurd rfl hnil
    · rw [List.append_nil] at hf
      rw [← herror]
      exact ofTokens_of_error (by rwa [withoutComments_of_proper hkept])

theorem incomplete_of_parse_let :
    let ts : List Spanned := [⟨.keyword .letWord, ⟨0, 3⟩⟩, ⟨.ident "x", ⟨4, 5⟩⟩,
      ⟨.mark .equals, ⟨5, 6⟩⟩, ⟨.int 1, ⟨6, 7⟩⟩, ⟨.keyword .inWord, ⟨8, 10⟩⟩,
      ⟨.ident "x", ⟨11, 12⟩⟩]
    (∃ p, parse "let x=1 in x" = .ok p) ∧
      withoutComments (Tokens.ofText "let x=1 in x").tokens = ts ++ [⟨.eof, .point 12⟩] ∧
      ofTokens ⟨ts.take 1, none⟩ = .error ⟨.expectedBinding, .point 3⟩ ∧
      ofTokens ⟨ts.take 5, none⟩ = .error ⟨.unexpectedEnd, .point 0⟩ ∧
      ((∃ q, ofTokens ⟨ts.take 5 ++ [⟨.eof, .point 10⟩], none⟩ = .ok q) ∨
        ofTokens ⟨ts.take 5 ++ [⟨.eof, .point 10⟩], none⟩ =
          .error ⟨.unexpectedEnd, .point 10⟩) := by
  intro ts
  have hok : (parse "let x=1 in x").isOk = true := by cbv
  have hts : withoutComments (Tokens.ofText "let x=1 in x").tokens =
    ts ++ [⟨.eof, .point 12⟩] := by cbv
  cases hp : parse "let x=1 in x" with
  | error e => simp [hp, Except.isOk, Except.toBool] at hok
  | ok p =>
    obtain ⟨us, stop, hus, hstop, hcut⟩ := incomplete_of_parse hp
    obtain ⟨rfl, -⟩ := List.append_inj' (hts.symm.trans hus) rfl
    have hmark := (hcut 5 ⟨.eof, .point 10⟩ rfl).1
    exact ⟨⟨p, rfl⟩, hts, (hcut 1 stop hstop).2, (hcut 5 stop hstop).2, hmark⟩

end Program

end ConfigExpr
