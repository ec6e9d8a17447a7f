import ConfigExpr.Proofs.Distinct
import ConfigExpr.Proofs.Places
import ConfigExpr.Proofs.Steps

/-!
# Parsing places what it reads

From tokens that stand one after the other each rule reads expressions that are placed, and what is
left stands after them; where the rule fails, it reports the place of one of the tokens
(`Expr.parse_placed`).
-/

namespace ConfigExpr

variable {source : List Char} {T : SourceTokens source}

/-- The error is at one of the tokens, and at an end mark if it reports the end of the input; or no
token was left, which has no place of its own. -/
inductive ParseError.Reported (T : SourceTokens source) : ParseError → Prop where
  | token {fault : ParseFault} {t : Spanned} :
    T.holds t → (fault = .unexpectedEnd → t.token = .eof) → Reported T ⟨fault, t.span⟩
  | exhausted : Reported T Failure.exhausted.error
  | afterLet {s : Span} : T.Marks s → Reported T ⟨.expectedBinding, .point s.stop⟩

theorem ParseError.Reported.within {e : ParseError} (h : e.Reported T) : e.span.Within source := by
  cases h with
  | token ht _ => exact (T.readIn ht).within
  | exhausted => exact Span.within_zero source
  | afterLet hs => exact hs.within.point_stop

theorem Failure.reported_unexpected {t : Spanned} (ht : T.holds t) (rest : List Spanned)
    (expected : List Expected) : (unexpected t rest expected).error.Reported T := by
  obtain ⟨token, span⟩ := t
  cases token with
  | eof => exact .token ht fun _ => rfl
  | _ => exact .token ht (by simp)

/-- The value and the tokens left satisfy the property, or the error is reported at a token. -/
inductive Outcome.Meets {α : Type} {n : Nat} (T : SourceTokens source)
    (P : α → List Spanned → Prop) : Outcome α n → Prop where
  | ok {value : α} {rest : List Spanned} {lighter : Spanned.weightAll rest < n} :
    P value rest → Meets T P (.ok value rest lighter)
  | error {f : Failure} : f.error.Reported T → Meets T P (.error f)

namespace Outcome.Meets

variable {α β : Type} {m n : Nat} {P : β → List Spanned → Prop} {Q : α → List Spanned → Prop}

theorem map {o : Outcome α n} {k : α → β} (h : o.Meets T Q)
    (hk : ∀ value rest, Q value rest → P (k value) rest) : (o.map k).Meets T P := by
  cases h with
  | ok hvalue => exact .ok (hk _ _ hvalue)
  | error hf => exact .error hf

theorem weaken {o : Outcome β m} {hm : m < n} (h : o.Meets T P) : (o.weaken hm).Meets T P := by
  cases h with
  | ok hvalue => exact .ok hvalue
  | error hf => exact .error hf

/-- What holds after a reported error, and after any value that satisfies the property. -/
@[elab_as_elim]
theorem elim {C : Outcome β n → Prop} {o : Outcome β n} (h : o.Meets T P)
    (error : ∀ f : Failure, f.error.Reported T → C (.error f))
    (ok : ∀ value rest lighter, P value rest → C (.ok value rest lighter)) : C o := by
  cases h with
  | ok hvalue => exact ok _ _ _ hvalue
  | error hf => exact error _ hf

end Outcome.Meets

/-- The result of a rule that takes no tokens off a list. -/
inductive ResultMeets {ε α : Type} (E : ε → Prop) (P : α → Prop) : Except ε α → Prop where
  | ok {value : α} : P value → ResultMeets E P (.ok value)
  | error {e : ε} : E e → ResultMeets E P (.error e)

@[elab_as_elim]
theorem ResultMeets.elim {ε α : Type} {E : ε → Prop} {P : α → Prop} {C : Except ε α → Prop}
    {r : Except ε α} (h : ResultMeets E P r) (error : ∀ e, E e → C (.error e))
    (ok : ∀ value, P value → C (.ok value)) : C r := by
  cases h with
  | ok hvalue => exact ok _ hvalue
  | error he => exact error _ he

open Outcome (Meets)

/-! ## Single tokens -/

/-- The span is that of a token after a position, and the tokens left stand after it. -/
structure Taken (T : SourceTokens source) (lo hi : Nat) (s : Span) (rest : List Spanned) :
    Prop where
  marks : T.Marks s
  le_start : lo ≤ s.start
  start_lt_stop : s.start < s.stop
  laid : Laid T s.stop hi rest

theorem Taken.within {lo hi : Nat} {s : Span} {rest : List Spanned} (h : Taken T lo hi s rest) :
    s.Within source :=
  h.marks.within

/-- The tokens left stand after the start of the token taken too. -/
theorem Taken.laid_of_le {lo hi : Nat} {s : Span} {rest : List Spanned}
    (h : Taken T lo hi s rest) : Laid T lo hi rest :=
  h.laid.of_le (Nat.le_trans h.le_start (Nat.le_of_lt h.start_lt_stop))

variable {lo mid hi : Nat} {t : Spanned} {ts : List Spanned}

theorem Laid.taken (h : Laid T lo hi (t :: ts)) (ht : t.token ≠ .eof) : Taken T lo hi t.span ts :=
  ⟨⟨t, h.holds, rfl⟩, h.le_start, h.start_lt_stop ht, h.tail⟩

theorem Token.ne_eof_of_isMark {m : Mark} {t : Token} (h : t.isMark m = true) : t ≠ .eof := by
  simp [isMark_iff.1 h]

theorem Token.ne_eof_of_isKeyword {w : Keyword} {t : Token} (h : t.isKeyword w = true) :
    t ≠ .eof := by
  simp [isKeyword_iff.1 h]

theorem meets_expectMark (m : Mark) (h : Laid T lo hi ts) :
    (expectMark m ts).Meets T (Taken T lo hi) := by
  cases ts with
  | nil => exact .error .exhausted
  | cons t ts =>
    rw [expectMark]
    split
    next hm => exact .ok (h.taken (Token.ne_eof_of_isMark hm))
    next => exact .error (Failure.reported_unexpected h.holds ts _)

theorem meets_expectKeyword (w : Keyword) (h : Laid T lo hi ts) :
    (expectKeyword w ts).Meets T (Taken T lo hi) := by
  cases ts with
  | nil => exact .error .exhausted
  | cons t ts =>
    rw [expectKeyword]
    split
    next hw => exact .ok (h.taken (Token.ne_eof_of_isKeyword hw))
    next => exact .error (Failure.reported_unexpected h.holds ts _)

theorem meets_expectEof (h : Laid T lo hi ts) : (expectEof ts).Meets T fun _ _ => True := by
  cases ts with
  | nil => exact .error .exhausted
  | cons t ts =>
    rw [expectEof]
    split
    · exact .ok trivial
    · exact .error (Failure.reported_unexpected h.holds ts _)

theorem meets_expectName (h : Laid T lo hi ts) :
    (expectName ts).Meets T fun name rest => Taken T lo hi name.span rest := by
  cases ts with
  | nil => exact .error .exhausted
  | cons t ts =>
    obtain ⟨token, span⟩ := t
    cases token with
    | ident name => exact .ok (h.taken (by simp))
    | eof => exact .error (.token h.holds fun _ => rfl)
    | _ => exact .error (.token h.holds (by simp))

/-- Names that stand one after the other, each of them a token, before the tokens left. -/
structure NamesTaken (T : SourceTokens source) (lo hi : Nat) (names : List Name)
    (rest : List Spanned) : Prop where
  marks : ∀ n ∈ names, T.Marks n.span
  exists_row : ∃ mid, Span.Row source lo mid (names.map (·.span)) ∧ Laid T mid hi rest

theorem NamesTaken.cons {name : Name} {names : List Name} {us rest : List Spanned}
    (hname : Taken T lo hi name.span us) (h : NamesTaken T name.span.stop hi names rest) :
    NamesTaken T lo hi (name :: names) rest := by
  obtain ⟨mid, hrow, hlaid⟩ := h.exists_row
  refine ⟨List.forall_mem_cons.2 ⟨hname.marks, h.marks⟩, mid, ?_, hlaid⟩
  exact .cons hname.within hname.le_start hrow

theorem NamesTaken.nil (h : Laid T lo hi ts) : NamesTaken T lo hi [] ts :=
  ⟨List.forall_mem_nil _, lo, .nil (Nat.le_refl lo), h⟩

theorem meets_parameters : ∀ {ts : List Spanned} {lo : Nat}, Laid T lo hi ts →
    (parameters ts).Meets T (NamesTaken T lo hi)
  | ts, lo, h => by
    rw [parameters]
    refine (meets_expectName h).elim (fun _ => .error) fun name rest lighter hname => ?_
    cases rest with
    | nil => exact .error .exhausted
    | cons t rest =>
      dsimp only
      split
      next hcomma =>
        have hrest := hname.laid.taken (Token.ne_eof_of_isMark hcomma)
        have := Nat.lt_trans (t.weightAll_lt_cons rest) lighter
        exact .weaken (.map (meets_parameters hrest.laid_of_le) fun _ _ hnames =>
          hnames.cons hname)
      split
      next hclose =>
        have hrest := hname.laid.taken (Token.ne_eof_of_isMark hclose)
        exact .ok (.cons hname (.nil hrest.laid_of_le))
      next => exact .error (Failure.reported_unexpected hname.laid.holds rest _)
termination_by ts => Spanned.weightAll ts

/-! ## The rules -/

theorem Laid.skipComma (h : Laid T lo hi ts) : Laid T lo hi (skipComma ts) := by
  cases ts with
  | nil => exact h
  | cons t ts =>
    rw [ConfigExpr.skipComma]
    split
    · exact h.sublist (List.sublist_cons_self t ts)
    · exact h

/-- An expression after a position, and the tokens left after it. -/
structure Parsed (T : SourceTokens source) (lo hi : Nat) (e : Expr) (rest : List Spanned) :
    Prop where
  sits : e.Sits source lo
  laid : Laid T e.span.stop hi rest

namespace Parsed

variable {e : Expr} {rest : List Spanned}

theorem within (h : Parsed T lo hi e rest) : e.span.Within source :=
  h.sits.placed.within

theorem lt_stop (h : Parsed T lo hi e rest) : lo < e.span.stop :=
  Nat.lt_of_le_of_lt h.sits.le_start h.sits.placed.start_lt_stop

end Parsed

/-- A form that is one token without parts. -/
theorem Taken.parsed {e : Expr} {s : Span} {rest : List Spanned} (h : Taken T lo hi s rest)
    (hspan : e.span = s) (hplaces : e.places = []) (hparts : e.parts = []) :
    Parsed T lo hi e rest := by
  subst hspan
  refine ⟨.of_cover rfl h.within h.within h.le_start h.start_lt_stop ?_ ?_, h.laid⟩
  · rw [hplaces]
    exact .nil h.within.start_le_stop
  · simp [hparts]

/-- Parsing tokens that stand one after the other gives an expression in its place. -/
def Expr.ParsePlaced (T : SourceTokens source) (ts : List Spanned) : Prop :=
  ∀ {lo hi}, Laid T lo hi ts → (Expr.parse ts).Meets T (Parsed T lo hi)

/-- Expressions up to a closing mark, which ends at `r.2`, and the tokens left after it. -/
structure SequenceParsed (T : SourceTokens source) (lo hi : Nat) (r : List Expr × Nat)
    (rest : List Spanned) : Prop where
  closed : Span.Closed source lo (r.1.map Expr.span) r.2
  everywhere : ∀ e ∈ r.1, e.Everywhere (Expr.Placed source)
  laid : Laid T r.2 hi rest

theorem Laid.closed (h : Laid T lo hi (t :: ts)) (ht : t.token ≠ .eof) :
    Span.Closed source lo [] t.span.stop :=
  ⟨t.span, h.within, h.start_lt_stop ht, rfl, .nil h.le_start⟩

theorem SequenceParsed.cons {e : Expr} {us rest : List Spanned} {r : List Expr × Nat}
    (he : Parsed T lo hi e us) (h : SequenceParsed T e.span.stop hi r rest) :
    SequenceParsed T lo hi (e :: r.1, r.2) rest :=
  ⟨.cons he.within he.sits.le_start h.closed,
    List.forall_mem_cons.2 ⟨he.sits.everywhere, h.everywhere⟩, h.laid⟩

namespace Parsed

variable {e key : Expr} {name : Name} {us vs rest : List Spanned} {r : List Expr × Nat}

theorem member (h : Parsed T lo hi e us) (hname : Taken T e.span.stop hi name.span rest) :
    Parsed T lo hi (.member e name ⟨e.span.start, name.span.stop⟩) rest := by
  have hrow : Span.Row source e.span.start name.span.stop [e.span, name.span] :=
    .cons h.within (Nat.le_refl _) (.cons hname.within hname.le_start (.nil (Nat.le_refl _)))
  refine ⟨.of_cover rfl h.within hname.within h.sits.le_start ?_ hrow ?_, hname.laid⟩
  · exact Nat.lt_of_lt_of_le h.sits.placed.start_lt_stop
      (Nat.le_trans hname.le_start hname.within.start_le_stop)
  · exact List.forall_mem_singleton.2 h.sits.everywhere

theorem index (h : Parsed T lo hi e us) (hkey : Parsed T e.span.stop hi key vs) {close : Span}
    (hclose : Taken T key.span.stop hi close rest) :
    Parsed T lo hi (.index e key ⟨e.span.start, close.stop⟩) rest := by
  have hclosed : Span.Closed source key.span.stop [] close.stop :=
    ⟨close, hclose.within, hclose.start_lt_stop, rfl, .nil hclose.le_start⟩
  refine ⟨.of_closed rfl h.within h.sits.le_start ?_ ?_, hclose.laid⟩
  · exact .cons h.within (Nat.le_refl _) (.cons hkey.within hkey.sits.le_start hclosed)
  · exact List.forall_mem_cons.2 ⟨h.sits.everywhere,
      List.forall_mem_singleton.2 hkey.sits.everywhere⟩

theorem apply (h : Parsed T lo hi e us) (hr : SequenceParsed T e.span.stop hi r rest) :
    Parsed T lo hi (.apply e r.1 ⟨e.span.start, r.2⟩) rest :=
  ⟨.of_closed rfl h.within h.sits.le_start (.cons h.within (Nat.le_refl _) hr.closed)
    (List.forall_mem_cons.2 ⟨h.sits.everywhere, hr.everywhere⟩), hr.laid⟩

theorem method (h : Parsed T lo hi e us) (hname : Taken T e.span.stop hi name.span vs)
    (hr : SequenceParsed T name.span.stop hi r rest) :
    Parsed T lo hi (.method e name r.1 ⟨e.span.start, r.2⟩) rest := by
  have hclosed := hr.closed.cons hname.within hname.le_start
  exact ⟨.of_closed rfl h.within h.sits.le_start (.cons h.within (Nat.le_refl _) hclosed)
    (List.forall_mem_cons.2 ⟨h.sits.everywhere, hr.everywhere⟩), hr.laid⟩

end Parsed

/-- Entries up to a closing brace, which ends at `r.2`, and the tokens left after it. -/
structure EntriesParsed (T : SourceTokens source) (lo hi : Nat) (r : List Entry × Nat)
    (rest : List Spanned) : Prop where
  closed : Span.Closed source lo (r.1.flatMap Entry.places) r.2
  everywhere : ∀ e ∈ r.1, e.value.Everywhere (Expr.Placed source)
  laid : Laid T r.2 hi rest

/-- Bindings one after the other, before the tokens left. -/
structure BindingsParsed (T : SourceTokens source) (lo hi : Nat) (bindings : List Binding)
    (rest : List Spanned) : Prop where
  everywhere : ∀ b ∈ bindings, b.value.Everywhere (Expr.Placed source)
  exists_row : ∃ mid, Span.Row source lo mid (bindings.flatMap Binding.places) ∧ Laid T mid hi rest

/-- The code in a string, in its order. -/
structure SegmentsPlaced (source : List Char) (lo hi : Nat) (segments : List Segment) : Prop where
  row : Span.Row source lo hi ((segments.filterMap Segment.code?).map Expr.span)
  everywhere : ∀ e ∈ segments.filterMap Segment.code?, e.Everywhere (Expr.Placed source)

section

variable {n : Nat} (ih : ∀ {us}, Spanned.weightAll us < n → Expr.ParsePlaced T us)

include ih

theorem meets_parseSequence (close : Mark) : ∀ {ts : List Spanned} {lo : Nat},
    Spanned.weightAll ts < n → Laid T lo hi ts →
    (Expr.parseSequence close ts).Meets T (SequenceParsed T lo hi)
  | [], _, _, _ => by
    rw [Expr.parseSequence]
    exact .error .exhausted
  | t :: ts, lo, hn, h => by
    rw [Expr.parseSequence]
    split
    next hclose =>
      exact .ok ⟨h.closed (Token.ne_eof_of_isMark hclose), List.forall_mem_nil _, h.tail⟩
    next =>
      refine (ih hn h).elim (fun _ => .error) fun item rest lighter hitem => ?_
      cases rest with
      | nil => exact .error .exhausted
      | cons u left =>
        dsimp only
        split
        next hcomma =>
          have hleft := Nat.lt_trans (u.weightAll_lt_cons left) lighter
          have hlaid := (hitem.laid.taken (Token.ne_eof_of_isMark hcomma)).laid_of_le
          have hitems := meets_parseSequence close (Nat.lt_trans hleft hn) hlaid
          exact .weaken (.map hitems fun _ _ hr => hr.cons hitem)
        split
        next hclose =>
          have hne := Token.ne_eof_of_isMark hclose
          have hnone : SequenceParsed T item.span.stop hi ([], u.span.stop) left :=
            ⟨hitem.laid.closed hne, List.forall_mem_nil _, hitem.laid.tail⟩
          exact .ok (hnone.cons hitem)
        next => exact .error (Failure.reported_unexpected hitem.laid.holds left _)
termination_by ts => Spanned.weightAll ts

theorem meets_parseAll_segments : ∀ {parts : List StringPart} {lo : Nat},
    StringPart.weightAll parts ≤ n → Laid T lo hi (parts.flatMap StringPart.tokens) →
    ResultMeets (ParseError.Reported T) (SegmentsPlaced source lo hi) (Segment.parseAll parts)
  | [], lo, _, h => by
    rw [Segment.parseAll]
    exact .ok ⟨.nil h.le, List.forall_mem_nil _⟩
  | .text s :: parts, lo, hn, h => by
    have hlt := StringPart.weightAll_lt_cons_self (.text s) parts
    rw [Segment.parseAll]
    exact (meets_parseAll_segments (Nat.le_trans (Nat.le_of_lt hlt) hn) h).elim (fun _ => .error)
      fun segments hsegments => .ok ⟨hsegments.row, hsegments.everywhere⟩
  | .code tokens :: parts, lo, hn, h => by
    have hlt := StringPart.weightAll_lt_cons_self (.code tokens) parts
    have htokens := Nat.lt_of_lt_of_le (Program.weightAll_withoutComments_lt_code tokens parts) hn
    obtain ⟨mid, hcode, hparts⟩ := h.exists_of_append
    rw [Segment.parseAll]
    refine (ih htokens (hcode.sublist List.filter_sublist)).elim (fun _ => .error) fun e rest _ he => ?_
    dsimp only
    refine (meets_expectEof he.laid).elim (fun _ => .error) fun _ _ _ _ => ?_
    dsimp only
    refine (meets_parseAll_segments (Nat.le_trans (Nat.le_of_lt hlt) hn)
      (hparts.of_le he.laid.le)).elim (fun _ => .error) fun segments hsegments => ?_
    exact .ok ⟨.cons he.within he.sits.le_start hsegments.row,
      List.forall_mem_cons.2 ⟨he.sits.everywhere, hsegments.everywhere⟩⟩

theorem meets_parseKey (hn : Spanned.weightAll (t :: ts) ≤ n) (h : Laid T lo hi (t :: ts)) :
    ResultMeets (fun f : Failure => f.error.Reported T)
      (fun key => Taken T lo hi key.span ts) (Name.parseKey t ts) := by
  obtain ⟨token, span⟩ := t
  cases token with
  | ident text =>
    rw [Name.parseKey]
    exact .ok (h.taken (by simp))
  | string parts =>
    have hlt := StringPart.weightAll_lt_cons (t := ⟨.string parts, span⟩) rfl ts
    rw [Name.parseKey]
    dsimp only
    refine (meets_parseAll_segments ih (Nat.le_trans (Nat.le_of_lt hlt) hn) (h.parts rfl)).elim
      (fun _ he => .error he) fun segments _ => ?_
    dsimp only
    split
    · exact .ok (h.taken (by simp))
    · exact .error (.token h.holds (by simp))
  | _ =>
    rw [Name.parseKey]
    exact .error (Failure.reported_unexpected h.holds ts _)

theorem meets_parseAll_entries : ∀ {ts : List Spanned} {lo : Nat}, Spanned.weightAll ts < n →
    Laid T lo hi ts → (Entry.parseAll ts).Meets T (EntriesParsed T lo hi)
  | [], _, _, _ => by
    rw [Entry.parseAll]
    exact .error .exhausted
  | t :: ts, lo, hn, h => by
    rw [Entry.parseAll]
    split
    next hclose =>
      exact .ok ⟨h.closed (Token.ne_eof_of_isMark hclose), List.forall_mem_nil _, h.tail⟩
    next =>
      refine (meets_parseKey ih (Nat.le_of_lt hn) h).elim (fun _ => .error) fun key hkey => ?_
      dsimp only
      refine (meets_expectMark .colon hkey.laid).elim (fun _ => .error)
        fun _ afterColon lighter hcolon => ?_
      dsimp only
      have hlt := Nat.lt_trans lighter (t.weightAll_lt_cons ts)
      refine (ih (Nat.lt_trans hlt hn) hcolon.laid_of_le).elim (fun _ => .error)
        fun value left lighter' hvalue => ?_
      have hleft := Nat.lt_of_le_of_lt (weightAll_skipComma_le left) (Nat.lt_trans lighter' hlt)
      have hothers := meets_parseAll_entries (Nat.lt_trans hleft hn) hvalue.laid.skipComma
      refine .weaken (.map hothers fun r rest hr => ⟨?_, ?_, hr.laid⟩)
      · exact .cons hkey.within hkey.le_start
          (.cons hvalue.within hvalue.sits.le_start hr.closed)
      · exact List.forall_mem_cons.2 ⟨hvalue.sits.everywhere, hr.everywhere⟩
termination_by ts => Spanned.weightAll ts

theorem meets_parseAll_bindings {m : Nat} : ∀ {ts : List Spanned} {lo : Nat}
    {hm : Spanned.weightAll ts < m}, Spanned.weightAll ts < n → Laid T lo hi ts →
    (Binding.parseAll ts hm).Meets T (BindingsParsed T lo hi)
  | [], lo, _, _, h => by
    rw [Binding.parseAll]
    exact .ok ⟨List.forall_mem_nil _, lo, .nil (Nat.le_refl lo), h⟩
  | t :: ts, lo, _, hn, h => by
    have hts := Nat.lt_trans (t.weightAll_lt_cons ts) hn
    rw [Binding.parseAll]
    cases ht : t.token with
    | ident text =>
      dsimp only
      have hname := h.taken (by simp [ht])
      refine (meets_expectMark .equals hname.laid).elim (fun _ => .error)
        fun _ afterEquals lighter hequals => ?_
      dsimp only
      have hlt := Nat.lt_trans lighter hts
      refine (ih hlt hequals.laid_of_le).elim (fun _ => .error)
        fun value left lighter' hvalue => ?_
      have hleft := Nat.lt_trans lighter' lighter
      refine .map (meets_parseAll_bindings (Nat.lt_trans lighter' hlt) hvalue.laid)
        fun bindings rest hr => ?_
      obtain ⟨mid, hrow, hlaid⟩ := hr.exists_row
      refine ⟨List.forall_mem_cons.2 ⟨hvalue.sits.everywhere, hr.everywhere⟩, mid, ?_, hlaid⟩
      exact .cons hname.within hname.le_start (.cons hvalue.within hvalue.sits.le_start hrow)
    | _ => exact .ok ⟨List.forall_mem_nil _, lo, .nil (Nat.le_refl lo), h⟩
termination_by ts => Spanned.weightAll ts
decreasing_by exact Nat.lt_trans hleft (t.weightAll_lt_cons ts)

/-- A lambda begins where its opening parenthesis does. -/
theorem meets_parseLambda {first : Span} {names : List Name} (hn : Spanned.weightAll ts < n)
    (hfirst : first.Within source) (hle : lo ≤ first.start)
    (h : NamesTaken T first.stop hi names ts) :
    (Expr.parseLambda first.start names ts).Meets T (Parsed T lo hi) := by
  obtain ⟨mid, hrow, hlaid⟩ := h.exists_row
  rw [Expr.parseLambda]
  cases hrepeated : Name.repeated? [] names with
  | some name =>
    obtain ⟨t, ht, hspan⟩ := h.marks name (Name.mem_of_repeated? hrepeated)
    exact .error (hspan ▸ .token ht (by simp))
  | none =>
    dsimp only
    refine (meets_expectMark .arrow hlaid).elim (fun _ => .error)
      fun _ rest lighter harrow => ?_
    have hbody := ih (Nat.lt_trans lighter hn) harrow.laid_of_le
    refine .weaken (.map hbody fun body left hbody => ⟨?_, hbody.laid⟩)
    have hnames := hrow.of_le hfirst.start_le_stop
    refine .of_cover rfl hfirst hbody.within hle (Nat.lt_of_le_of_lt hnames.le hbody.lt_stop) ?_
      (List.forall_mem_singleton.2 hbody.sits.everywhere)
    exact hnames.append (.cons hbody.within hbody.sits.le_start (.nil (Nat.le_refl _)))

theorem meets_parseLet (hn : Spanned.weightAll ts ≤ n) (h : Laid T lo hi ts) :
    (Expr.parseLet ts).Meets T (Parsed T lo hi) := by
  rw [Expr.parseLet]
  refine (meets_expectKeyword .letWord h).elim (fun _ => .error)
    fun word afterWord lighter hword => ?_
  dsimp only
  have hlt := Nat.lt_of_lt_of_le lighter hn
  refine (meets_parseAll_bindings ih hlt hword.laid).elim (fun _ => .error)
    fun bindings left lighter₁ hbindings => ?_
  obtain ⟨mid, hrow, hlaid⟩ := hbindings.exists_row
  cases bindings with
  | nil =>
    cases left with
    | nil => exact .error (.afterLet hword.marks)
    | cons t left => exact .error (.token hlaid.holds (by simp))
  | cons b bindings =>
    dsimp only
    refine (meets_expectKeyword .inWord hlaid).elim (fun _ => .error)
      fun _ afterIn lighter₂ hin => ?_
    have hbody := ih (Nat.lt_of_lt_of_le (Nat.lt_trans lighter₂ lighter₁) hn) hin.laid_of_le
    refine .weaken (.map hbody fun body left hbody => ⟨?_, hbody.laid⟩)
    have hplaces := hrow.of_le hword.within.start_le_stop
    refine .of_cover rfl hword.within hbody.within hword.le_start
      (Nat.lt_of_le_of_lt hplaces.le hbody.lt_stop) ?_ ?_
    · exact hplaces.append (.cons hbody.within hbody.sits.le_start (.nil (Nat.le_refl _)))
    · refine List.forall_mem_append.2 ⟨?_, List.forall_mem_singleton.2 hbody.sits.everywhere⟩
      exact List.forall_mem_map.2 hbindings.everywhere

theorem meets_parseParen {first : Span} (hn : Spanned.weightAll ts < n)
    (hfirst : first.Within source) (hle : lo ≤ first.start) (h : Laid T first.stop hi ts) :
    (Expr.parseParen first.start ts).Meets T (Parsed T lo hi) := by
  have hlo : lo ≤ first.stop := Nat.le_trans hle hfirst.start_le_stop
  rw [Expr.parseParen]
  cases ParenForm.ofTokens ts with
  | noParameters =>
    dsimp only
    refine (meets_expectMark .closeParen h).elim (fun _ => .error)
      fun _ rest lighter hclose => ?_
    exact .weaken (meets_parseLambda ih (Nat.lt_trans lighter hn) hfirst hle
      (.nil hclose.laid_of_le))
  | parameterList =>
    dsimp only
    refine (meets_parameters h).elim (fun _ => .error) fun names rest lighter hnames => ?_
    exact .weaken (meets_parseLambda ih (Nat.lt_trans lighter hn) hfirst hle hnames)
  | singleName =>
    dsimp only
    refine (meets_expectName h).elim (fun _ => .error) fun name afterName lighter hname => ?_
    dsimp only
    refine (meets_expectMark .closeParen hname.laid).elim (fun _ => .error)
      fun _ rest lighter' hclose => ?_
    dsimp only
    split
    · exact .weaken (meets_parseLambda ih (Nat.lt_trans (Nat.lt_trans lighter' lighter) hn)
        hfirst hle (.cons hname (.nil hclose.laid_of_le)))
    · exact .ok ⟨((hname.parsed rfl rfl rfl).sits.of_le hlo), hclose.laid_of_le⟩
  | group =>
    dsimp only
    refine (ih hn h).elim (fun _ => .error) fun e left lighter hinner => ?_
    refine .weaken (.map (meets_expectMark .closeParen hinner.laid) fun _ rest hclose => ?_)
    exact ⟨hinner.sits.of_le hlo, hclose.laid_of_le⟩

theorem meets_parsePostfix {m : Nat} : ∀ {ts : List Spanned} {e : Expr}
    {hm : Spanned.weightAll ts < m}, Spanned.weightAll ts < n → Parsed T lo hi e ts →
    (Expr.parsePostfix e ts hm).Meets T (Parsed T lo hi)
  | [], e, _, _, h => by
    rw [Expr.parsePostfix]
    exact .ok h
  | t :: ts, e, _, hn, h => by
    have hlt := t.weightAll_lt_cons ts
    rw [Expr.parsePostfix]
    cases ht : t.token with
    | mark mark =>
      have hlaid := (h.laid.taken (by simp [ht])).laid_of_le
      cases mark with
      | dot =>
        dsimp only
        refine (meets_expectName hlaid).elim (fun _ => .error)
          fun name afterName lighter hname => ?_
        have hafter := Nat.lt_trans lighter hlt
        cases afterName with
        | nil => exact .ok (h.member hname)
        | cons u afterName =>
          dsimp only
          split
          next hopen =>
            have htail := Nat.lt_trans (u.weightAll_lt_cons afterName) hafter
            have hrest := (hname.laid.taken (Token.ne_eof_of_isMark hopen)).laid_of_le
            refine (meets_parseSequence ih .closeParen (Nat.lt_trans htail hn) hrest).elim
              (fun _ => .error) fun r left lighter' hsequence => ?_
            have hleft := Nat.lt_trans lighter' htail
            exact meets_parsePostfix (Nat.lt_trans hleft hn) (h.method hname hsequence)
          next => exact meets_parsePostfix (Nat.lt_trans hafter hn) (h.member hname)
      | openBracket =>
        dsimp only
        refine (ih (Nat.lt_trans hlt hn) hlaid).elim (fun _ => .error)
          fun key afterKey lighter hkey => ?_
        dsimp only
        refine (meets_expectMark .closeBracket hkey.laid).elim (fun _ => .error)
          fun close left lighter' hclose => ?_
        have hleft := Nat.lt_trans (Nat.lt_trans lighter' lighter) hlt
        exact meets_parsePostfix (Nat.lt_trans hleft hn) (h.index hkey hclose)
      | openParen =>
        dsimp only
        refine (meets_parseSequence ih .closeParen (Nat.lt_trans hlt hn) hlaid).elim
          (fun _ => .error) fun r left lighter hsequence => ?_
        have hleft := Nat.lt_trans lighter hlt
        exact meets_parsePostfix (Nat.lt_trans hleft hn) (h.apply hsequence)
      | _ => exact .ok h
    | _ => exact .ok h
termination_by ts => Spanned.weightAll ts

theorem meets_parseList (hn : Spanned.weightAll ts ≤ n) (h : Laid T lo hi ts) :
    (Expr.parseList ts).Meets T (Parsed T lo hi) := by
  rw [Expr.parseList]
  refine (meets_expectMark .openBracket h).elim (fun _ => .error)
    fun opening rest lighter hopen => ?_
  have hitems := meets_parseSequence ih .closeBracket (Nat.lt_of_lt_of_le lighter hn) hopen.laid
  refine .weaken (.map hitems ?_)
  rintro ⟨items, stop⟩ left hr
  refine ⟨?_, hr.laid⟩
  exact .of_closed rfl hopen.within hopen.le_start
    (hr.closed.of_le hopen.within.start_le_stop) hr.everywhere

theorem meets_parseMap (hn : Spanned.weightAll ts ≤ n) (h : Laid T lo hi ts) :
    (Expr.parseMap ts).Meets T (Parsed T lo hi) := by
  rw [Expr.parseMap]
  refine (meets_expectMark .openBrace h).elim (fun _ => .error)
    fun opening rest lighter hopen => ?_
  have hentries := meets_parseAll_entries ih (Nat.lt_of_lt_of_le lighter hn) hopen.laid
  refine .weaken (.map hentries ?_)
  rintro ⟨entries, stop⟩ left hr
  refine ⟨?_, hr.laid⟩
  exact .of_closed rfl hopen.within hopen.le_start
    (hr.closed.of_le hopen.within.start_le_stop) (List.forall_mem_map.2 hr.everywhere)

theorem meets_parsePrimary (hn : Spanned.weightAll (t :: ts) ≤ n) (h : Laid T lo hi (t :: ts)) :
    (Expr.parsePrimary (t :: ts)).Meets T (Parsed T lo hi) := by
  have hts := Nat.lt_of_lt_of_le (t.weightAll_lt_cons ts) hn
  obtain ⟨token, span⟩ := t
  cases token with
  | int | float | ident =>
    rw [Expr.parsePrimary]
    exact .ok ((h.taken (by simp)).parsed rfl rfl rfl)
  | keyword w =>
    cases w with
    | trueWord | falseWord =>
      rw [Expr.parsePrimary]
      exact .ok ((h.taken (by simp)).parsed rfl rfl rfl)
    | _ =>
      rw [Expr.parsePrimary]
      exact .error (Failure.reported_unexpected h.holds ts _)
  | string parts =>
    have hlt := StringPart.weightAll_lt_cons (t := ⟨.string parts, span⟩) rfl ts
    have htaken := h.taken (by simp)
    rw [Expr.parsePrimary]
    dsimp only
    refine (meets_parseAll_segments ih (Nat.le_trans (Nat.le_of_lt hlt) hn) (h.parts rfl)).elim
      (fun _ he => .error he) fun segments hsegments => .ok ⟨?_, htaken.laid⟩
    exact .of_cover rfl htaken.within htaken.within htaken.le_start htaken.start_lt_stop
      hsegments.row hsegments.everywhere
  | mark m =>
    cases m with
    | openBrace =>
      rw [Expr.parsePrimary]
      exact meets_parseMap ih hn h
    | openBracket =>
      rw [Expr.parsePrimary]
      exact meets_parseList ih hn h
    | openParen =>
      rw [Expr.parsePrimary]
      exact .weaken (meets_parseParen ih hts h.within h.le_start h.tail)
    | _ =>
      rw [Expr.parsePrimary]
      exact .error (Failure.reported_unexpected h.holds ts _)
  | _ =>
    rw [Expr.parsePrimary]
    exact .error (Failure.reported_unexpected h.holds ts _)

end

/-- From tokens in their places the parser reads an expression in its place. -/
theorem Expr.parse_placed : ∀ ts : List Spanned, Expr.ParsePlaced T ts
  | [], _, _, _ => by
    rw [Expr.parse]
    exact .error .exhausted
  | t :: ts, lo, hi, h => by
    have ih : ∀ {us}, Spanned.weightAll us < Spanned.weightAll (t :: ts) →
      Expr.ParsePlaced T us := fun {us} _ => Expr.parse_placed us
    rw [Expr.parse]
    split
    · exact meets_parseLet ih (Nat.le_refl _) h
    · exact (meets_parsePrimary ih (Nat.le_refl _) h).elim (fun _ => .error)
        fun e left lighter hprimary => meets_parsePostfix ih lighter hprimary
termination_by ts => Spanned.weightAll ts

theorem Expr.parseWhole_placed (h : Laid T lo hi ts) :
    (Expr.parseWhole ts).Meets T fun e _ => e.Sits source lo := by
  rw [Expr.parseWhole]
  refine (Expr.parse_placed ts h).elim (fun _ => .error) fun e left _ hparse => ?_
  dsimp only
  exact (meets_expectEof hparse.laid).elim (fun _ => .error) fun _ _ _ _ => .ok hparse.sits

end ConfigExpr
