import ConfigExpr.Proofs.LexicalErrors

/-!
# End marks

The tokens of a source end in one mark at its end, and the tokens of code in a string in one at the
brace that closes the code. Every parse error is reported at a token, and the end of the input only
at one of these marks (`Program.parse_error_at_token`).
-/

namespace ConfigExpr

/-- The end mark of a source stands at its end. -/
theorem Tiles.span_eq_of_eof {p : Nat} {source : List Char} {ts : List Spanned}
    (h : Tiles p source ts) : ∀ t ∈ ts, t.token = .eof → t.span = .point (p + bytes source) := by
  induction ts generalizing p source with
  | nil => exact List.forall_mem_nil _
  | cons t ts ih =>
    obtain ⟨gap, word, rest, rfl, -, hspan, hword, heof, hts⟩ := h
    refine List.forall_mem_cons.2 ⟨fun ht => ?_, fun u hu hmark => ?_⟩
    · rw [hspan, hword.2 ht, (heof ht).1]
      simp [Span.point]
    · rw [ih hts u hu hmark, hspan]
      simp [Nat.add_assoc]

/-- Code with these tokens stands in the source between a dollar sign with a brace and the brace
that closes it, at the byte position given. -/
def CodeAt (source : List Char) (tokens : List Spanned) (close : Nat) : Prop :=
  ∃ before code after, source = before ++ '$' :: '\x7b' :: (code ++ '\x7d' :: after) ∧
    close = bytes before + 2 + bytes code ∧
    Cursor.ReadsCode (bytes before) 0 ⟨bytes before + 2, code ++ '\x7d' :: after⟩ tokens
      ⟨close + 1, after⟩

theorem StringPart.code_not_mem_ofText {tokens : List Spanned} {text : List Char} :
    .code tokens ∉ ofText text := by
  unfold ofText
  split <;> simp

namespace Cursor

variable {source : List Char} {quotes : Quotes} {opening dollar : Nat} {c : Cursor}
  {tokens : List Spanned}

/-- The code of a stretch begins after its dollar sign and brace. -/
theorem exists_before_of_stretch {text : List Char} {inside : Cursor}
    (h : stretch quotes opening c = .ok (text, .code dollar inside))
    (hc : (start source).Reaches c) :
    ∃ before, source = before ++ '$' :: '\x7b' :: inside.rest ∧ dollar = bytes before ∧
      inside.position = bytes before + 2 := by
  obtain ⟨before, hsource, hposition⟩ := hc.exists_before
  obtain ⟨us, hrest, hplace, -⟩ := exists_of_stretch h
  obtain ⟨hdollar, hinside⟩ := StretchEnd.code.inj hplace
  refine ⟨before ++ us, ?_, ?_, ?_⟩
  · rw [hsource, hrest, List.append_assoc]
    rfl
  · rw [bytes_append, ← hposition]
    exact hdollar
  · rw [bytes_append, ← hposition]
    exact congrArg Cursor.position hinside

theorem ReadsCode.codeAt {text : List Char} {inside mid : Cursor}
    (h : stretch quotes opening c = .ok (text, .code dollar inside))
    (hcode : ReadsCode dollar 0 inside tokens mid) (hc : (start source).Reaches c) :
    ∃ close, CodeAt source tokens close := by
  obtain ⟨before, hsource, rfl, hposition⟩ := exists_before_of_stretch h hc
  obtain ⟨code, hrest, hmid⟩ := hcode.passes
  rw [List.append_assoc, List.singleton_append] at hrest
  rw [bytes_append, hposition] at hmid
  rw [eq_mk_of_rest hrest, hposition] at hcode
  refine ⟨_, before, code, mid.rest, by rw [hsource, hrest], rfl, ?_⟩
  have hclose : bytes before + 2 + bytes code + 1 = mid.position := by
    rw [hmid]
    rfl
  rw [hclose]
  exact hcode

/-- The code in a string that is read stands in the source. -/
theorem ReadsString.exists_codeAt : ∀ {quotes : Quotes} {opening : Nat} {c : Cursor}
    {parts : List StringPart} {after : Cursor}, ReadsString quotes opening c parts after →
    (start source).Reaches c → .code tokens ∈ parts → ∃ close, CodeAt source tokens close
  | _, _, _, _, _, .closed _, _, hmem => absurd hmem StringPart.code_not_mem_ofText
  | _, _, _, _, _, .code h hcode ho, hc, hmem => by
    rcases List.mem_append.1 hmem with hmem | hmem
    · exact absurd hmem StringPart.code_not_mem_ofText
    · rcases List.mem_cons.1 hmem with hmem | hmem
      · cases hmem
        exact hcode.codeAt h hc
      · obtain ⟨us, -, hus⟩ := passes_of_stretch h
        obtain ⟨vs, hvs⟩ := hcode.passes
        exact ho.exists_codeAt ((hc.trans ⟨us, hus⟩).trans ⟨_, hvs⟩) hmem

/-- The end mark of code stands at the brace that closes it. -/
theorem ReadsCode.eof_span : ∀ {dollar depth : Nat} {c : Cursor} {tokens : List Spanned}
    {after : Cursor}, ReadsCode dollar depth c tokens after → ∀ u ∈ tokens, u.token = .eof →
    ∃ p, u.span = .point p ∧ after.position = p + 1
  | _, _, _, _, _, .close h hd, u, hu, _ => by
    obtain rfl := List.mem_singleton.1 hu
    have hbrace := h.passes_closeBrace (Token.depthAfter?_eq_none hd)
    refine ⟨_, rfl, ?_⟩
    rw [h.extent.1]
    exact hbrace.position
  | _, _, _, _, _, .token h _ ho, u, hu, heof => by
    refine ho.eof_span u ?_ heof
    split at hu
    · exact hu
    · rcases List.mem_cons.1 hu with rfl | hu
      · exact absurd heof (ne_eof_of_yields_next (h.yields _ h.skipBlanks_eq))
      · exact hu

end Cursor

theorem CodeAt.span_eq_of_eof {source : List Char} {tokens : List Spanned} {close : Nat}
    {u : Spanned} (h : CodeAt source tokens close) (hu : u ∈ tokens) (heof : u.token = .eof) :
    u.span = .point close := by
  obtain ⟨before, code, after, -, -, hcode⟩ := h
  obtain ⟨p, hspan, hclose⟩ := hcode.eof_span u hu heof
  rw [hspan, Nat.succ.inj hclose]

namespace Spanned

variable {source : List Char} {t u : Spanned}

/-- The code of a string that is read in a source stands there. -/
theorem ReadIn.exists_codeAt {parts : List StringPart} {tokens : List Spanned}
    (h : t.ReadIn source) (ht : t.token = .string parts) (hcode : .code tokens ∈ parts) :
    ∃ close, CodeAt source tokens close := by
  obtain ⟨c, hc, ⟨after, hreads⟩ | rfl⟩ := h
  · cases hreads with
    | lexeme _ _ hl =>
      obtain rfl : _ = Token.string parts := ht
      exact absurd (spelt_lexeme hl).1 Token.Spelt.ne_string
    | @block p cs _ _ hstring =>
      cases ht
      exact hstring.exists_codeAt (hc.trans ⟨_, Cursor.passes_quotes .block p cs⟩) hcode
    | @line p cs _ _ hcs hstring =>
      cases ht
      exact hstring.exists_codeAt (hc.trans ⟨_, Cursor.passes_quotes .line p cs⟩) hcode
  · cases ht

theorem exists_code_of_mem_inner (h : u ∈ t.inner) :
    ∃ parts tokens, t.token = .string parts ∧ .code tokens ∈ parts ∧ u ∈ tokens := by
  unfold inner at h
  split at h
  next parts ht =>
    obtain ⟨part, hpart, hu⟩ := List.mem_flatMap.1 h
    cases part with
    | text => cases hu
    | code tokens => exact ⟨parts, tokens, ht, hpart, hu⟩
  next => cases h

end Spanned

namespace Program

/-- A string token of the source, at any depth, has code that the brace at this position closes. -/
def ClosesCode (source : String) (close : Nat) : Prop :=
  ∃ t parts tokens, Occurs source t ∧ t.token = .string parts ∧ .code tokens ∈ parts ∧
    CodeAt source.toList tokens close

/-- The end mark among the tokens of a source stands at its end. -/
theorem span_eq_of_eof {source : String} {t : Spanned} (ht : t ∈ (Tokens.ofText source).tokens)
    (heof : t.token = .eof) : t.span = .point (bytes source.toList) := by
  have hspan := (Cursor.start source.toList).tiles_tokens.span_eq_of_eof t ht heof
  rwa [Cursor.start, Nat.zero_add] at hspan

/-- An end mark stands at the end of the source or at a brace that closes code in a string. -/
theorem Occurs.span_eq_of_eof {source : String} {u : Spanned} (h : Occurs source u)
    (heof : u.token = .eof) :
    u.span = .point (bytes source.toList) ∨ ∃ close, u.span = .point close ∧
      ClosesCode source close := by
  obtain ⟨-, t, ht, hcontains⟩ := h
  cases hcontains with
  | self => exact .inl (Program.span_eq_of_eof ht heof)
  | @inner s _ hs hu =>
    have hread := ((everywhere_readIn t ht).of_contains hs).self
    obtain ⟨parts, tokens, hstring, hcode, hu⟩ := Spanned.exists_code_of_mem_inner hu
    obtain ⟨close, hclose⟩ := hread.exists_codeAt hstring hcode
    exact .inr ⟨close, hclose.span_eq_of_eof hu heof, s, parts, tokens, ⟨hread, t, ht, hs⟩,
      hstring, hcode, hclose⟩

/-- A parse error that is not lexical has the span of a token of the source, at any depth. The end
of the input is found at an end mark only, and only where nothing is written does an error have the
empty span at zero. -/
theorem parse_error_at_token {source : String} {e : ParseError} (h : parse source = .error e)
    (hlexical : ∀ l, e.fault ≠ .lexical l) :
    (∃ u, Occurs source u ∧ u.span = e.span) ∧
      (e.fault = .unexpectedEnd → ∃ p, e.span = .point p ∧
        (p = bytes source.toList ∨ ClosesCode source p)) ∧
      (e.span = .point 0 → source = "") := by
  rcases parse_cases source with ⟨⟨p, hp⟩, -⟩ | ⟨l, -, hp⟩ | ⟨e', hp, -, u, hu, hspan, heof⟩
  · cases h.symm.trans hp
  · cases h.symm.trans hp
    exact absurd rfl (hlexical l)
  · cases h.symm.trans hp
    refine ⟨⟨u, hu, hspan⟩, fun hend => ?_, fun hzero => ?_⟩
    · rw [← hspan]
      rcases hu.span_eq_of_eof (heof hend) with hu | ⟨close, hu, hclose⟩
      · exact ⟨_, hu, .inl rfl⟩
      · exact ⟨close, hu, .inr hclose⟩
    · rw [← hspan] at hzero
      have hmark : u.token = .eof := by
        by_contra hne
        have hlt := hu.1.start_lt_stop hne
        rw [hzero] at hlt
        exact Nat.lt_irrefl 0 hlt
      rcases hu.span_eq_of_eof hmark with hspan' | ⟨close, hspan', hclose⟩
      · have hlength := congrArg Span.stop (hspan'.symm.trans hzero)
        by_contra hne
        exact absurd hlength (Nat.ne_of_gt (bytes_pos fun hnil => hne (String.toList_inj.1 hnil)))
      · obtain ⟨-, -, -, -, -, -, before, code, after, -, hposition, -⟩ := hclose
        have hclose := congrArg Span.stop (hspan'.symm.trans hzero)
        simp only [Span.point] at hclose
        omega

/-- The end of the input at the brace that closes code in a string, after a character of two bytes,
and a token in code without a comma before it. -/
theorem parse_error_at_token_code :
    (∃ e, parse "\"é$\x7bf(\x7d\" 1" = .error e ∧ (∀ l, e.fault ≠ .lexical l) ∧
      e.fault = .unexpectedEnd ∧ e.span = .point 7 ∧ ClosesCode "\"é$\x7bf(\x7d\" 1" 7) ∧
    ∃ e u, parse "\"$\x7b[1 2]\x7d\"" = .error e ∧ (∀ l, e.fault ≠ .lexical l) ∧
      Occurs "\"$\x7b[1 2]\x7d\"" u ∧ u.span = ⟨6, 7⟩ := by
  have hend : parse "\"é$\x7bf(\x7d\" 1" = .error ⟨.unexpectedEnd, .point 7⟩ := by cbv
  have hitem : parse "\"$\x7b[1 2]\x7d\"" =
      .error ⟨.unexpected (.int 2) [.mark .comma, .mark .closeBracket], ⟨6, 7⟩⟩ := by cbv
  obtain ⟨p, hp, hplace⟩ := (parse_error_at_token hend (by simp)).2.1 rfl
  obtain ⟨u, hu, hspan⟩ := (parse_error_at_token hitem (by simp)).1
  obtain rfl : 7 = p := congrArg Span.start hp
  have hclose := hplace.resolve_left (by decide)
  exact ⟨⟨_, hend, by simp, rfl, rfl, hclose⟩, _, u, hitem, by simp, hu, hspan⟩

end Program

end ConfigExpr
