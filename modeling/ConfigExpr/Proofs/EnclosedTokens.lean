import ConfigExpr.Proofs.EndMarks
import ConfigExpr.Proofs.Interpolated

/-!
# Tokens of code in strings

Code in a string is read where it stands, up to the brace that closes it, and the text after it is
not cut off. All the same its tokens are those of the text between its braces, read alone and moved
to where it stands, without comments (`Tokens.ofText_code`). These tokens close the braces they
open, and none before it is opened.
-/

namespace ConfigExpr

/-! ## Braces -/

/-- No beginning of the tokens closes more braces than it opens, and all of them close as many. -/
structure BracesMatch (ts : List Token) : Prop where
  closed_le : ∀ us, us <+: ts →
    us.countP (Token.isMark .closeBrace) ≤ us.countP (Token.isMark .openBrace)
  closed_eq : ts.countP (Token.isMark .closeBrace) = ts.countP (Token.isMark .openBrace)

/-- The depth after some tokens is the depth before them, with the braces opened and without those
closed. -/
theorem countP_of_foldlM_depthAfter? {ts : List Token} {depth last : Nat}
    (h : ts.foldlM Token.depthAfter? depth = some last) :
    ts.countP (Token.isMark .closeBrace) + last =
      ts.countP (Token.isMark .openBrace) + depth := by
  induction ts generalizing depth with
  | nil =>
    cases h
    rfl
  | cons t ts ih =>
    rw [List.foldlM_cons] at h
    obtain ⟨inner, ht, hts⟩ := Option.bind_eq_some_iff.1 h
    have hinner := ih hts
    unfold Token.depthAfter? at ht
    split at ht
    · cases ht
      have hclose : ¬ Token.isMark .closeBrace (.mark .openBrace) = true := Bool.false_ne_true
      rw [List.countP_cons_of_neg hclose, List.countP_cons_of_pos rfl]
      omega
    · split_ifs at ht
      cases ht
      have hopen : ¬ Token.isMark .openBrace (.mark .closeBrace) = true := Bool.false_ne_true
      rw [List.countP_cons_of_pos rfl, List.countP_cons_of_neg hopen]
      omega
    next hopen hclose =>
      cases ht
      rw [List.countP_cons_of_neg fun h => hclose (Token.isMark_iff.1 h),
        List.countP_cons_of_neg fun h => hopen (Token.isMark_iff.1 h)]
      exact hinner

theorem bracesMatch_of_foldlM {ts : List Token} (h : ts.foldlM Token.depthAfter? 0 = some 0) :
    BracesMatch ts := by
  refine ⟨?_, by simpa using countP_of_foldlM_depthAfter? h⟩
  rintro us ⟨vs, rfl⟩
  rw [List.foldlM_append] at h
  obtain ⟨depth, hus, -⟩ := Option.bind_eq_some_iff.1 h
  have hcount := countP_of_foldlM_depthAfter? hus
  omega

/-! ## Tokens in another place -/

theorem Token.goesOn_append {t : Token} {us : List Char} (h : t.goesOn us = true)
    (rest : List Char) : t.goesOn (us ++ rest) = true := by
  rcases us with _ | ⟨c, us⟩
  · simp at h
  cases t with
  | int v => rcases us with _ | ⟨d, us⟩ <;> simp_all [goesOn]
  | mark m => cases m <;> exact h
  | _ => exact h

namespace Cursor

theorem tokens_of_blank {p : Nat} {us : List Char} (hus : ∀ u ∈ us, Text.isBlank u = true) :
    (⟨p, us⟩ : Cursor).tokens = ⟨[⟨.eof, .point (p + bytes us)⟩], none⟩ := by
  have hskip : (⟨p, us⟩ : Cursor).skipBlanks = ⟨p + bytes us, []⟩ := by
    simp [skipBlanks, List.takeWhile_eq_self_iff.2 hus, List.dropWhile_eq_nil_iff.2 hus]
  rw [tokens_of_finish (next_eq_finish (congrArg rest hskip)), hskip]

/-! ## Code and the text between its braces -/

/-- The tokens of code open and close braces from the depth they begin at down to none. -/
theorem ReadsCode.foldlM_depthAfter? {dollar depth : Nat} {c after : Cursor}
    {tokens : List Spanned} (h : ReadsCode dollar depth c tokens after) :
    (tokens.map (·.token)).foldlM Token.depthAfter? depth = some 0 := by
  induction h using ReadsCode.induction with
  | close h hd =>
    rw [Token.depthAfter?_eq_none hd, Token.depthAfter?] at hd
    split_ifs at hd with hzero
    rw [hzero]
    rfl
  | token h hd ho hothers =>
    split
    next hcomment =>
      rw [Token.isComment_iff.1 hcomment] at hd
      cases hd
      exact hothers
    next =>
      rw [List.map_cons, List.foldlM_cons, hd]
      exact hothers

/-- Cut off before the brace that closes it, the text of code has the same tokens, and its comments
besides. -/
theorem ReadsCode.exists_tokens {dollar depth : Nat} {c after : Cursor} {tokens : List Spanned}
    (h : ReadsCode dollar depth c tokens after) :
    ∃ us, c.Passes (us ++ ['\x7d']) after ∧
      (⟨c.position, us⟩ : Cursor).tokens.error = none ∧
      Program.withoutComments (⟨c.position, us⟩ : Cursor).tokens.tokens = tokens := by
  induction h using ReadsCode.induction with
  | @close _ _ c _ _ h hd =>
    have hbrace := h.passes_closeBrace (Token.depthAfter?_eq_none hd)
    have hskip := c.passes_skipBlanks
    have hblank : ∀ u ∈ c.rest.takeWhile Text.isBlank, Text.isBlank u = true :=
      fun _ => List.mem_takeWhile_imp
    have htokens := tokens_of_blank (p := c.position) hblank
    refine ⟨_, hskip.append hbrace, by rw [htokens], ?_⟩
    rw [htokens, ← hskip.position, h.extent.1]
    rfl
  | @token _ _ _ c _ _ t _ h hd ho ih =>
    obtain ⟨us, hus, hmove⟩ := yields_next_move (g := fun n => n) (fun _ => rfl)
      (h.yields c rfl)
    obtain ⟨vs, hvs, herror, hothers⟩ := ih
    have hnext := hmove vs fun hgoes => by
      rw [hvs.rest, List.append_assoc]
      exact Token.goesOn_append hgoes _
    rw [show t.mapSpans (Span.move fun n => n) = t from t.mapSpans_id] at hnext
    have hpasses := hus.append hvs
    rw [← List.append_assoc] at hpasses
    refine ⟨us ++ vs, hpasses, ?_, ?_⟩
    · rw [tokens_of_yields hnext]
      exact herror
    · rw [tokens_of_yields hnext, Program.withoutComments_cons, hothers]

end Cursor

/-- Code with these tokens stands in the source at this span, from its dollar sign to the brace that
closes it. The tokens are those of the text between its braces, read alone and moved to its place,
without comments; the end mark is at the closing brace. -/
def CodeText (source : List Char) (tokens : List Spanned) (s : Span) : Prop :=
  ∃ before code after, source = before ++ '$' :: '\x7b' :: (code ++ '\x7d' :: after) ∧
    let opening := bytes before + 2
    let close := opening + bytes code
    let alone := Tokens.ofText (String.ofList code)
    s = ⟨bytes before, close + 1⟩ ∧ alone.error = none ∧
      tokens = Spanned.moveAll (· + opening) (Program.withoutComments alone.tokens) ∧
      (∃ body, tokens = body ++ [⟨.eof, .point close⟩]) ∧
      BracesMatch (tokens.map (·.token))

/-- The tokens of the code that a part of a string is. -/
def StringPart.code? : StringPart → Option (List Spanned)
  | .text _ => none
  | .code tokens => some tokens

theorem StringPart.filterMap_code?_ofText (text : List Char) :
    (ofText text).filterMap code? = [] := by
  unfold ofText
  split <;> rfl

namespace Cursor

variable {source : List Char}

theorem ReadsCode.codeText {quotes : Quotes} {opening dollar : Nat} {c inside mid : Cursor}
    {text : List Char} {tokens : List Spanned}
    (h : stretch quotes opening c = .ok (text, .code dollar inside))
    (hcode : ReadsCode dollar 0 inside tokens mid) (hc : (start source).Reaches c) :
    CodeText source tokens ⟨dollar, mid.position⟩ := by
  obtain ⟨before, hsource, rfl, hposition⟩ := exists_before_of_stretch h hc
  obtain ⟨code, hpasses, herror, htokens⟩ := hcode.exists_tokens
  have hrest := hpasses.rest
  rw [List.append_assoc, List.singleton_append] at hrest
  have hclose : mid.position = bytes before + 2 + bytes code + 1 := by
    rw [hpasses.position, bytes_append, hposition]
    rfl
  rw [hposition] at herror htokens
  -- The text is moved to the start of a source of its own, and its tokens back.
  have haway := tokens_move (c := ⟨bytes before + 2, code⟩) (slides_sub_self _)
  have hback := tokens_move (c := start code) (slides_add (bytes before + 2) 0)
  rw [Cursor.move, Nat.sub_self] at haway
  rw [Cursor.move, start, Nat.zero_add] at hback
  have hofText : Tokens.ofText (String.ofList code) = (start code).tokens := by
    rw [Tokens.ofText, String.toList_ofList]
  have halone : tokens = Spanned.moveAll (· + (bytes before + 2))
      (Program.withoutComments (Tokens.ofText (String.ofList code)).tokens) := by
    rw [← htokens, hback, hofText]
    exact Program.withoutComments_moveAll _ _
  refine ⟨before, code, mid.rest, by rw [hsource, hrest], by rw [hclose], ?_, halone, ?_,
    bracesMatch_of_foldlM hcode.foldlM_depthAfter?⟩
  · rw [hofText, start, haway, Tokens.move, herror]
    rfl
  · obtain ⟨body, hbody⟩ := exists_of_error_eq_none herror
    rw [← htokens, hbody]
    exact ⟨Program.withoutComments body, List.filter_append ..⟩

/-- The codes of a string that is read stand in it one after the other. -/
theorem ReadsString.exists_codeText {quotes : Quotes} {opening : Nat} {c after : Cursor}
    {parts : List StringPart} (h : ReadsString quotes opening c parts after)
    (hc : (start source).Reaches c) :
    ∃ ss, List.Forall₂ (CodeText source) (parts.filterMap StringPart.code?) ss ∧
      Span.Chain c.position after.position ss := by
  induction h using ReadsString.induction with
  | closed h =>
    obtain ⟨us, -, hus⟩ := passes_of_stretch h
    rw [StringPart.filterMap_code?_ofText]
    exact ⟨[], .nil, hus.le⟩
  | code h hcode ho ih =>
    obtain ⟨us, -, hus⟩ := passes_of_stretch h
    obtain ⟨vs, hvs⟩ := hcode.passes
    obtain ⟨b, hdollar, ⟨ws, hws⟩, ⟨xs, hxs⟩⟩ := exists_of_stretch_code h
    obtain ⟨ss, hss, hchain⟩ := ih ((hc.trans ⟨us, hus⟩).trans ⟨_, hvs⟩)
    rw [List.filterMap_append, StringPart.filterMap_code?_ofText, List.nil_append]
    refine ⟨_, .cons (hcode.codeText h hc) hss, ?_, ?_, hchain⟩
    · rw [← hdollar]
      exact hws.le
    · rw [← hdollar]
      exact Nat.le_trans hxs.le hvs.le

end Cursor

theorem Spanned.ReadIn.exists_codeText {source : List Char} {t : Spanned}
    {parts : List StringPart} (h : t.ReadIn source) (ht : t.token = .string parts) :
    ∃ ss, List.Forall₂ (CodeText source) (parts.filterMap StringPart.code?) ss ∧
      Span.Chain t.span.start t.span.stop ss := by
  obtain ⟨c, hc, ⟨after, hreads⟩ | rfl⟩ := h
  · cases hreads with
    | lexeme _ _ hl =>
      obtain rfl : _ = Token.string parts := ht
      exact absurd (spelt_lexeme hl).1 Token.Spelt.ne_string
    | @block p cs _ _ hstring =>
      cases ht
      obtain ⟨ss, hss, hchain⟩ :=
        hstring.exists_codeText (hc.trans ⟨_, Cursor.passes_quotes .block p cs⟩)
      exact ⟨ss, hss, hchain.of_le (Nat.le_add_right _ _)⟩
    | @line p cs _ _ hcs hstring =>
      cases ht
      obtain ⟨ss, hss, hchain⟩ :=
        hstring.exists_codeText (hc.trans ⟨_, Cursor.passes_quotes .line p cs⟩)
      exact ⟨ss, hss, hchain.of_le (Nat.le_add_right _ _)⟩
  · cases ht

/-- The codes of a string stand in it one after the other, at every depth. Each has the tokens of
the text between its braces, which is without lexical errors when read alone. -/
theorem Tokens.ofText_code (text : String) :
    ∀ t ∈ (ofText text).tokens, t.Everywhere fun u => ∀ parts, u.token = .string parts →
      ∃ ss, List.Forall₂ (CodeText text.toList) (parts.filterMap StringPart.code?) ss ∧
        Span.Chain u.span.start u.span.stop ss :=
  fun t ht => (Cursor.everywhere_tokens (.refl _) t ht).imp fun _ hu _ => hu.exists_codeText

/-- Two codes in a string. The first has a comment with a brace in it, and a map whose value is a
string with code of its own. -/
theorem Tokens.ofText_code_nested :
    let text := "\"$\x7b\x7bk:\"$\x7bb\x7d\"\x7d#\x7d\n\x7d$\x7bc\x7d\""
    let inner : Spanned :=
      ⟨.string [.code [⟨.ident "b", ⟨9, 10⟩⟩, ⟨.eof, .point 10⟩]], ⟨6, 12⟩⟩
    let first : List Spanned := [⟨.mark .openBrace, ⟨3, 4⟩⟩, ⟨.ident "k", ⟨4, 5⟩⟩,
      ⟨.mark .colon, ⟨5, 6⟩⟩, inner, ⟨.mark .closeBrace, ⟨12, 13⟩⟩, ⟨.eof, .point 16⟩]
    let second : List Spanned := [⟨.ident "c", ⟨19, 20⟩⟩, ⟨.eof, .point 20⟩]
    let outer : Spanned := ⟨.string [.code first, .code second], ⟨0, 22⟩⟩
    outer ∈ (ofText text).tokens ∧ inner ∈ outer.inner ∧
      (∃ ss, List.Forall₂ (CodeText text.toList) [first, second] ss ∧ Span.Chain 0 22 ss) ∧
      ∃ ss, List.Forall₂ (CodeText text.toList) [[⟨.ident "b", ⟨9, 10⟩⟩, ⟨.eof, .point 10⟩]] ss ∧
        Span.Chain 6 12 ss := by
  intro text inner first second outer
  have htokens : (ofText text).tokens = [outer, ⟨.eof, .point 22⟩] := by cbv
  have houter : outer ∈ (ofText text).tokens := by
    rw [htokens]
    exact List.mem_cons_self
  have hinner : inner ∈ outer.inner := by
    simp [outer, first, Spanned.inner, StringPart.tokens]
  have hcodes := ofText_code text outer houter
  exact ⟨houter, hinner, hcodes.self _ rfl, (hcodes.inner hinner).self _ rfl⟩

end ConfigExpr
