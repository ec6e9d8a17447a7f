import ConfigExpr.Proofs.Scans

/-!
# Readings

What the lexer does from a place on, as relations: `ReadsToken`, `ReadsString` and `ReadsCode` are
the readings that succeed, `FailsToken`, `FailsString` and `FailsCode` those that do not. The lexer
gives what the relations say (`yields_next_iff`, `next_eq_error_iff`), so whatever holds of its
readings is proved by recursion on these, with one case for each way of reading.
-/

namespace ConfigExpr.Cursor

mutual

/-- A token is read from a place without blank characters before it. -/
inductive ReadsToken : Cursor → Spanned → Cursor → Prop where
  | lexeme {p : Nat} {ch : Char} {cs : List Char} {token : Token} :
    Text.isBlank ch = false → ch ≠ '"' → (lexeme ch cs).reading = .ok token →
    ReadsToken ⟨p, ch :: cs⟩ ⟨token, ⟨p, p + bytes (lexeme ch cs).text⟩⟩
      ⟨p + bytes (lexeme ch cs).text, (lexeme ch cs).rest⟩
  | block {p : Nat} {cs : List Char} {parts : List StringPart} {after : Cursor} :
    ReadsString .block p ⟨p + 3, cs⟩ parts after →
    ReadsToken ⟨p, '"' :: '"' :: '"' :: cs⟩ ⟨.string parts, ⟨p, after.position⟩⟩ after
  | line {p : Nat} {cs : List Char} {parts : List StringPart} {after : Cursor} :
    (∀ ds, cs ≠ '"' :: '"' :: ds) → ReadsString .line p ⟨p + 1, cs⟩ parts after →
    ReadsToken ⟨p, '"' :: cs⟩ ⟨.string parts, ⟨p, after.position⟩⟩ after

inductive ReadsString : Quotes → Nat → Cursor → List StringPart → Cursor → Prop where
  | closed {quotes : Quotes} {opening : Nat} {c next : Cursor} {text : List Char} :
    stretch quotes opening c = .ok (text, .closed next) →
    ReadsString quotes opening c (StringPart.ofText text) next
  | code {quotes : Quotes} {opening dollar : Nat} {c inside mid after : Cursor} {text : List Char}
    {tokens : List Spanned} {others : List StringPart} :
    stretch quotes opening c = .ok (text, .code dollar inside) →
    ReadsCode dollar 0 inside tokens mid → ReadsString quotes opening mid others after →
    ReadsString quotes opening c (StringPart.ofText text ++ .code tokens :: others) after

inductive ReadsCode : Nat → Nat → Cursor → List Spanned → Cursor → Prop where
  | close {dollar depth : Nat} {c after : Cursor} {t : Spanned} :
    ReadsToken c.skipBlanks t after → t.token.depthAfter? depth = none →
    ReadsCode dollar depth c [⟨.eof, .point t.span.start⟩] after
  | token {dollar depth inner : Nat} {c mid after : Cursor} {t : Spanned}
    {others : List Spanned} :
    ReadsToken c.skipBlanks t mid → t.token.depthAfter? depth = some inner →
    ReadsCode dollar inner mid others after →
    ReadsCode dollar depth c (if t.token.isComment then others else t :: others) after

end

/-! Induction on a string or on code takes what is read inside its parts as it is. -/

@[elab_as_elim]
theorem ReadsString.induction {motive : (quotes : Quotes) → (opening : Nat) → (c : Cursor) →
      (parts : List StringPart) → (after : Cursor) → ReadsString quotes opening c parts after → Prop}
    (closed : ∀ {quotes opening c next text}
      (h : stretch quotes opening c = .ok (text, .closed next)),
      motive quotes opening c (StringPart.ofText text) next (.closed h))
    (code : ∀ {quotes opening dollar c inside mid after text tokens others}
      (h : stretch quotes opening c = .ok (text, .code dollar inside))
      (hcode : ReadsCode dollar 0 inside tokens mid)
      (ho : ReadsString quotes opening mid others after), motive quotes opening mid others after ho →
      motive quotes opening c (StringPart.ofText text ++ .code tokens :: others) after
        (.code h hcode ho))
    {quotes : Quotes} {opening : Nat} {c : Cursor} {parts : List StringPart} {after : Cursor}
    (h : ReadsString quotes opening c parts after) : motive quotes opening c parts after h :=
  @ReadsString.rec (fun _ _ _ _ => True) motive (fun _ _ _ _ _ _ => True)
    (fun _ _ _ => trivial) (fun _ _ => trivial) (fun _ _ _ => trivial) closed
    (fun h hcode ho _ => code h hcode ho) (fun _ _ _ => trivial) (fun _ _ _ _ _ => trivial)
    quotes opening c parts after h

@[elab_as_elim]
theorem ReadsCode.induction {motive : (dollar depth : Nat) → (c : Cursor) →
      (tokens : List Spanned) → (after : Cursor) → ReadsCode dollar depth c tokens after → Prop}
    (close : ∀ {dollar depth c after t} (h : ReadsToken c.skipBlanks t after)
      (hd : t.token.depthAfter? depth = none),
      motive dollar depth c [⟨.eof, .point t.span.start⟩] after (.close h hd))
    (token : ∀ {dollar depth inner c mid after t others} (h : ReadsToken c.skipBlanks t mid)
      (hd : t.token.depthAfter? depth = some inner) (ho : ReadsCode dollar inner mid others after),
      motive dollar inner mid others after ho →
      motive dollar depth c (if t.token.isComment then others else t :: others) after
        (.token h hd ho))
    {dollar depth : Nat} {c : Cursor} {tokens : List Spanned} {after : Cursor}
    (h : ReadsCode dollar depth c tokens after) : motive dollar depth c tokens after h :=
  @ReadsCode.rec (fun _ _ _ _ => True) (fun _ _ _ _ _ _ => True) motive
    (fun _ _ _ => trivial) (fun _ _ => trivial) (fun _ _ _ => trivial) (fun _ => trivial)
    (fun _ _ _ _ _ => trivial) (fun h hd _ => close h hd) (fun h hd ho _ => token h hd ho)
    dollar depth c tokens after h

mutual

inductive FailsToken : Cursor → LexError → Prop where
  | lexeme {p : Nat} {ch : Char} {cs : List Char} {fault : LexFault} :
    ch ≠ '"' → (lexeme ch cs).reading = .error fault →
    FailsToken ⟨p, ch :: cs⟩ ⟨fault, ⟨p, p + bytes (lexeme ch cs).text⟩⟩
  | block {p : Nat} {cs : List Char} {e : LexError} :
    FailsString .block p ⟨p + 3, cs⟩ e → FailsToken ⟨p, '"' :: '"' :: '"' :: cs⟩ e
  | line {p : Nat} {cs : List Char} {e : LexError} :
    (∀ ds, cs ≠ '"' :: '"' :: ds) → FailsString .line p ⟨p + 1, cs⟩ e →
    FailsToken ⟨p, '"' :: cs⟩ e

inductive FailsString : Quotes → Nat → Cursor → LexError → Prop where
  | stretch {quotes : Quotes} {opening : Nat} {c : Cursor} {e : LexError} :
    stretch quotes opening c = .error e → FailsString quotes opening c e
  | code {quotes : Quotes} {opening dollar : Nat} {c inside : Cursor} {text : List Char}
    {e : LexError} :
    ConfigExpr.stretch quotes opening c = .ok (text, .code dollar inside) →
    FailsCode dollar 0 inside e → FailsString quotes opening c e
  | later {quotes : Quotes} {opening dollar : Nat} {c inside mid : Cursor} {text : List Char}
    {tokens : List Spanned} {e : LexError} :
    ConfigExpr.stretch quotes opening c = .ok (text, .code dollar inside) →
    ReadsCode dollar 0 inside tokens mid → FailsString quotes opening mid e →
    FailsString quotes opening c e

inductive FailsCode : Nat → Nat → Cursor → LexError → Prop where
  | finish {dollar depth : Nat} {c : Cursor} :
    c.skipBlanks.rest = [] →
    FailsCode dollar depth c ⟨.unterminatedCode, ⟨dollar, c.skipBlanks.position⟩⟩
  | token {dollar depth : Nat} {c : Cursor} {e : LexError} :
    FailsToken c.skipBlanks e → FailsCode dollar depth c e
  | later {dollar depth inner : Nat} {c mid : Cursor} {t : Spanned} {e : LexError} :
    ReadsToken c.skipBlanks t mid → t.token.depthAfter? depth = some inner →
    FailsCode dollar inner mid e → FailsCode dollar depth c e

end

theorem isBlank_head_skipBlanks {c : Cursor} {ch : Char} {cs : List Char}
    (h : c.skipBlanks.rest = ch :: cs) : Text.isBlank ch = false := by
  have hhead := List.head?_dropWhile_not Text.isBlank c.rest
  rw [show c.rest.dropWhile Text.isBlank = ch :: cs from h] at hhead
  simpa using hhead

theorem eq_mk_of_rest {c : Cursor} {cs : List Char} (h : c.rest = cs) : c = ⟨c.position, cs⟩ := by
  cases c
  cases h
  rfl

theorem finish_of_next {c : Cursor} {p : Nat} (h : c.next = .finish p) :
    c.skipBlanks.rest = [] ∧ p = c.skipBlanks.position := by
  rw [next] at h
  split at h
  next hr =>
    cases h
    exact ⟨hr, rfl⟩
  · split at h <;> cases h
  · split at h <;> cases h
  · dsimp only at h
    split at h <;> cases h

theorem next_eq_finish {c : Cursor} (h : c.skipBlanks.rest = []) :
    c.next = .finish c.skipBlanks.position := by
  rw [next]
  split
  · rfl
  all_goals
    next hr => simp [h] at hr

/-! ## The lexer gives what is read -/

mutual

theorem readsToken_of_yields {c : Cursor} {t : Spanned} {after : Cursor}
    (h : c.next.Yields t after) : ReadsToken c.skipBlanks t after := by
  have hs := c.rest_length_skipBlanks_le
  rcases hr : c.skipBlanks.rest with _ | ⟨ch, cs⟩
  · exact absurd h (not_yields_next_nil hr)
  rw [hr, List.length_cons] at hs
  rw [eq_mk_of_rest hr]
  by_cases hch : ch = '"'
  · subst hch
    by_cases hcs : ∃ ds, cs = '"' :: '"' :: ds
    · obtain ⟨ds, rfl⟩ := hcs
      obtain ⟨parts, hp, rfl⟩ := (yields_next_block hr).1 h
      have hlt : ds.length < c.rest.length := by
        simp only [List.length_cons] at hs
        omega
      exact .block (readsString_of_yields hp)
    · have hcs : ∀ ds, cs ≠ '"' :: '"' :: ds := fun ds hd => hcs ⟨ds, hd⟩
      obtain ⟨parts, hp, rfl⟩ := (yields_next_line hr hcs).1 h
      have hlt : cs.length < c.rest.length := hs
      exact .line hcs (readsString_of_yields hp)
  · obtain ⟨token, hl, rfl, rfl⟩ := (yields_next_lexeme hr hch).1 h
    exact .lexeme (isBlank_head_skipBlanks hr) hch hl
termination_by (c.rest.length, 0)
decreasing_by
  · exact .left _ _ hlt
  · exact .left _ _ hlt

theorem readsString_of_yields {quotes : Quotes} {opening : Nat} {c : Cursor}
    {parts : List StringPart} {after : Cursor} (h : (string quotes opening c).Yields parts after) :
    ReadsString quotes opening c parts after := by
  obtain ⟨text, stop, hs, h⟩ := yields_string.1 h
  have hlt := rest_length_lt_of_stretch hs
  cases stop with
  | closed next =>
    obtain ⟨rfl, rfl⟩ := h
    exact .closed hs
  | code dollar inside =>
    obtain ⟨tokens, mid, ht, others, ho, rfl⟩ := h
    have hmid := Nat.lt_trans ht.shorter hlt
    exact .code hs (readsCode_of_yields ht) (readsString_of_yields ho)
termination_by (c.rest.length, 0)
decreasing_by
  · exact .left _ _ hlt
  · exact .left _ _ hmid

theorem readsCode_of_yields {dollar depth : Nat} {c : Cursor} {tokens : List Spanned}
    {after : Cursor} (h : (code dollar depth c).Yields tokens after) :
    ReadsCode dollar depth c tokens after := by
  obtain ⟨t, mid, ht, h⟩ := yields_code.1 h
  have hmid := ht.shorter
  split at h
  next hd =>
    obtain ⟨rfl, rfl⟩ := h
    exact .close (readsToken_of_yields ht) hd
  next hd =>
    obtain ⟨others, ho, rfl⟩ := h
    exact .token (readsToken_of_yields ht) hd (readsCode_of_yields ho)
termination_by (c.rest.length, 1)
decreasing_by
  · exact .right _ Nat.zero_lt_one
  · exact .right _ Nat.zero_lt_one
  · exact .left _ _ hmid

end

mutual

theorem ReadsToken.yields {c : Cursor} {t : Spanned} {after : Cursor} (b : Cursor)
    (hb : b.skipBlanks = c) : ReadsToken c t after → b.next.Yields t after
  | .lexeme _ hch hl => by
    have hr := congrArg Cursor.rest hb
    refine (yields_next_lexeme hr hch).2 ⟨_, hl, ?_⟩
    rw [hb]
    exact ⟨rfl, rfl⟩
  | .block hs => by
    have hr := congrArg Cursor.rest hb
    refine (yields_next_block hr).2 ?_
    rw [hb]
    exact ⟨_, hs.yields, rfl⟩
  | .line hcs hs => by
    have hr := congrArg Cursor.rest hb
    refine (yields_next_line hr hcs).2 ?_
    rw [hb]
    exact ⟨_, hs.yields, rfl⟩

theorem ReadsString.yields {quotes : Quotes} {opening : Nat} {c : Cursor}
    {parts : List StringPart} {after : Cursor} :
    ReadsString quotes opening c parts after → (string quotes opening c).Yields parts after
  | .closed hs => yields_string.2 ⟨_, _, hs, rfl, rfl⟩
  | .code hs hc ho => yields_string.2 ⟨_, _, hs, _, _, hc.yields, _, ho.yields, rfl⟩

theorem ReadsCode.yields {dollar depth : Nat} {c : Cursor} {tokens : List Spanned}
    {after : Cursor} :
    ReadsCode dollar depth c tokens after → (code dollar depth c).Yields tokens after
  | .close ht hd => yields_code.2 ⟨_, _, ht.yields _ rfl, by rw [hd]; exact ⟨rfl, rfl⟩⟩
  | .token ht hd ho =>
    yields_code.2 ⟨_, _, ht.yields _ rfl, by rw [hd]; exact ⟨_, ho.yields, rfl⟩⟩

end

theorem yields_next_iff {c : Cursor} {t : Spanned} {after : Cursor} :
    c.next.Yields t after ↔ ReadsToken c.skipBlanks t after :=
  ⟨readsToken_of_yields, fun h => h.yields c rfl⟩

/-! ## The lexer fails where nothing is read -/

mutual

theorem failsToken_of_next {c : Cursor} {e : LexError} (h : c.next = .error e) :
    FailsToken c.skipBlanks e := by
  have hs := c.rest_length_skipBlanks_le
  rw [next] at h
  split at h
  · cases h
  next cs hr =>
    rw [eq_mk_of_rest hr]
    have hlt : cs.length < c.rest.length := by
      simp only [hr, List.length_cons] at hs
      omega
    split at h
    · cases h
    next e' he =>
      cases h
      exact .block (failsString_of_string he)
  next cs hcs hr =>
    rw [eq_mk_of_rest hr]
    have hlt : cs.length < c.rest.length := by
      simp only [hr, List.length_cons] at hs
      omega
    split at h
    · cases h
    next e' he =>
      cases h
      exact .line hcs (failsString_of_string he)
  next ch cs _ hch hr =>
    rw [eq_mk_of_rest hr]
    dsimp only at h
    split at h
    · cases h
    next fault hl =>
      cases h
      exact .lexeme hch hl
termination_by (c.rest.length, 0)
decreasing_by
  · exact .left _ _ hlt
  · exact .left _ _ hlt

theorem failsString_of_string {quotes : Quotes} {opening : Nat} {c : Cursor} {e : LexError}
    (h : string quotes opening c = .error e) : FailsString quotes opening c e := by
  rw [string] at h
  split at h
  next hs =>
    cases h
    exact .stretch hs
  · cases h
  next text dollar inside hs =>
    have hlt : inside.rest.length < c.rest.length := rest_length_lt_of_stretch hs
    split at h
    next he =>
      cases h
      exact .code hs (failsCode_of_code he)
    next tokens mid shorter ht =>
      have hmid := Nat.lt_trans shorter hlt
      split at h
      next he =>
        cases h
        exact .later hs (readsCode_of_yields ⟨shorter, ht⟩) (failsString_of_string he)
      · cases h
termination_by (c.rest.length, 0)
decreasing_by
  · exact .left _ _ hlt
  · exact .left _ _ hmid

theorem failsCode_of_code {dollar depth : Nat} {c : Cursor} {e : LexError}
    (h : code dollar depth c = .error e) : FailsCode dollar depth c e := by
  rw [code] at h
  split at h
  next p hn =>
    cases h
    obtain ⟨hr, rfl⟩ := finish_of_next hn
    exact .finish hr
  next e' hn =>
    cases h
    exact .token (failsToken_of_next hn)
  next t mid shorter hn =>
    split at h
    · cases h
    next inner hd =>
      split at h
      next he =>
        cases h
        have hmid := shorter
        exact .later (readsToken_of_yields ⟨shorter, hn⟩) hd (failsCode_of_code he)
      · cases h
termination_by (c.rest.length, 1)
decreasing_by
  · exact .right _ Nat.zero_lt_one
  · exact .left _ _ hmid

end

mutual

theorem FailsToken.next_eq {c : Cursor} {e : LexError} (b : Cursor) (hb : b.skipBlanks = c) :
    FailsToken c e → b.next = .error e
  | .lexeme hch hl => by
    have hrest := congrArg Cursor.rest hb
    rw [next]
    split
    next hr => cases hr.symm.trans hrest
    next hr => exact absurd (List.cons.inj (hr.symm.trans hrest)).1.symm hch
    next hr => exact absurd (List.cons.inj (hr.symm.trans hrest)).1.symm hch
    next hr =>
      obtain ⟨rfl, rfl⟩ := List.cons.inj (hr.symm.trans hrest)
      simp only [hl, hb]
  | @FailsToken.block p cs _ hs => by
    have hrest := congrArg Cursor.rest hb
    rw [next]
    split
    next hr => cases hr.symm.trans hrest
    next ds hr =>
      cases hr.symm.trans hrest
      have hstring : string .block b.skipBlanks.position ⟨b.skipBlanks.position + 3, cs⟩ =
          .error e := by
        rw [hb]
        exact hs.string_eq
      simp only [hstring]
    next hne hr => exact absurd (List.cons.inj (hr.symm.trans hrest)).2 (hne cs)
    next hne hr => exact absurd (List.cons.inj (hr.symm.trans hrest)).1 hne
  | @FailsToken.line p cs _ hcs hs => by
    have hrest := congrArg Cursor.rest hb
    rw [next]
    split
    next hr => cases hr.symm.trans hrest
    next ds hr => exact absurd (List.cons.inj (hr.symm.trans hrest)).2.symm (hcs ds)
    next hr =>
      cases hr.symm.trans hrest
      have hstring : string .line b.skipBlanks.position ⟨b.skipBlanks.position + 1, cs⟩ =
          .error e := by
        rw [hb]
        exact hs.string_eq
      simp only [hstring]
    next hne hr => exact absurd (List.cons.inj (hr.symm.trans hrest)).1 hne

theorem FailsString.string_eq {quotes : Quotes} {opening : Nat} {c : Cursor} {e : LexError} :
    FailsString quotes opening c e → string quotes opening c = .error e
  | .stretch hs => by
    rw [string]
    split
    next hs' =>
      cases hs.symm.trans hs'
      rfl
    next hs' => cases hs.symm.trans hs'
    next hs' => cases hs.symm.trans hs'
  | .code hs hc => by
    rw [string]
    split
    next hs' => cases hs.symm.trans hs'
    next hs' => cases hs.symm.trans hs'
    next hs' =>
      cases hs.symm.trans hs'
      simp only [hc.code_eq]
  | .later hs ht ho => by
    obtain ⟨_, ht⟩ := ht.yields
    rw [string]
    split
    next hs' => cases hs.symm.trans hs'
    next hs' => cases hs.symm.trans hs'
    next hs' =>
      cases hs.symm.trans hs'
      simp only [ht, ho.string_eq]

theorem FailsCode.code_eq {dollar depth : Nat} {c : Cursor} {e : LexError} :
    FailsCode dollar depth c e → code dollar depth c = .error e
  | .finish hr => by
    rw [code, next_eq_finish hr]
  | .token ht => by
    rw [code, ht.next_eq c rfl]
  | .later ht hd ho => by
    obtain ⟨_, hn⟩ := ht.yields c rfl
    rw [code]
    simp only [hn, hd, ho.code_eq]

end

theorem next_eq_error_iff {c : Cursor} {e : LexError} :
    c.next = .error e ↔ FailsToken c.skipBlanks e :=
  ⟨failsToken_of_next, fun h => h.next_eq c rfl⟩

end ConfigExpr.Cursor
