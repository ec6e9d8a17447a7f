import ConfigExpr.Command.Argument
import ConfigExpr.Program.Run
import ConfigExpr.Proofs.Steps
import ConfigExpr.Proofs.Tiles

/-!
# Texts of one token

A text has one token, and that one no string and no comment, if and only if it is a text of the
token once the blank characters at its ends are trimmed (`Token.only?_eq_some_iff`). If that token
is a number, a boolean or a name, the text is a program (`Program.parse_of_only?`).
-/

namespace ConfigExpr

/-! ## Trimming -/

namespace Text

variable {before word after : List Char}

/-- Blank characters around a text without any are trimmed. -/
theorem trim_append (hblank : ∀ c ∈ before ++ after, isBlank c = true)
    (hword : ∀ c ∈ word, isBlank c = false) : trim (before ++ (word ++ after)) = word := by
  obtain ⟨hbefore, hafter⟩ := List.forall_mem_append.1 hblank
  cases word with
  | nil =>
    have hall : (before ++ ([] ++ after)).dropWhile isBlank = [] :=
      List.dropWhile_eq_nil_iff.2 hblank
    rw [trim, trimStart, hall]
    rfl
  | cons c cs =>
    have hhead : ∀ d ∈ (c :: cs ++ after).head?, isBlank d = false := by
      rintro _ ⟨⟩
      exact hword c List.mem_cons_self
    have hlast : ∀ d ∈ (c :: cs).reverse.head?, isBlank d = false := fun d hd =>
      hword d (List.mem_reverse.1 (List.mem_of_mem_head? hd))
    rw [trim, trimStart, (takeWhile_dropWhile_append hbefore hhead).2, trimEnd,
      List.reverse_append, (takeWhile_dropWhile_append (by simpa using hafter) hlast).2,
      List.reverse_reverse]

theorem trim_eq_self (hword : ∀ c ∈ word, isBlank c = false) : trim word = word := by
  simpa using @trim_append [] word [] (List.forall_mem_nil _) hword

/-- What is trimmed is blank. -/
theorem exists_trim (text : List Char) :
    ∃ before after, text = before ++ (trim text ++ after) ∧
      ∀ c ∈ before ++ after, isBlank c = true := by
  refine ⟨text.takeWhile isBlank, ((trimStart text).reverse.takeWhile isBlank).reverse, ?_, ?_⟩
  · rw [trim, trimEnd, ← List.reverse_append, List.takeWhile_append_dropWhile, List.reverse_reverse,
      trimStart, List.takeWhile_append_dropWhile]
  · refine List.forall_mem_append.2 ⟨fun c => List.mem_takeWhile_imp, fun c hc => ?_⟩
    exact List.mem_takeWhile_imp (List.mem_reverse.1 hc)

end Text

/-! ## One token and the end mark -/

namespace Cursor

variable {c : Cursor}

theorem rest_eq_of_tokens_eof (h : c.tokens.tokens.map (·.token) = [.eof]) :
    c.skipBlanks.rest = [] := by
  rw [Cursor.tokens] at h
  split at h
  next hn => exact (finish_of_next hn).1
  next => cases h
  next t after hafter hn =>
    have heof := ne_eof_of_yields_next ⟨hafter, hn⟩
    exact absurd (List.cons.inj h).1 heof

/-- A text of one token, which is no string, is the token's and blank characters around it. -/
theorem exists_spelt_of_tokens {t : Token} (ht : ∀ parts, t ≠ .string parts)
    (h : c.tokens.tokens.map (·.token) = [t, .eof]) :
    ∃ before text after, c.rest = before ++ (text ++ after) ∧ t.Spelt text ∧
      ∀ ch ∈ before ++ after, Text.isBlank ch = true := by
  rw [Cursor.tokens] at h
  split at h
  next => cases h
  next => cases h
  next u after hafter hn =>
    obtain ⟨rfl, hend⟩ := List.cons.inj h
    have hreads := readsToken_of_yields ⟨hafter, hn⟩
    have hblank := after.passes_skipBlanks.rest
    rw [rest_eq_of_tokens_eof hend, List.append_nil] at hblank
    have hrest := c.passes_skipBlanks.rest
    generalize c.skipBlanks = c' at hreads hrest
    cases hreads with
    | @lexeme p ch cs token hch hquote hl =>
      refine ⟨c.rest.takeWhile Text.isBlank, (lexeme ch cs).text, (lexeme ch cs).rest, ?_,
        (spelt_lexeme hl).1, fun ch hch => ?_⟩
      · rw [(lexeme ch cs).text_append_rest]
        exact hrest
      · rcases List.mem_append.1 hch with hch | hch
        · exact List.mem_takeWhile_imp hch
        · dsimp only at hblank
          rw [hblank] at hch
          exact List.mem_takeWhile_imp hch
    | block => exact absurd rfl (ht _)
    | line => exact absurd rfl (ht _)

/-- A text of a token that is no comment is read as that token where only blank characters stand
around it. -/
theorem exists_tokens_of_spelt {t : Token} {before text after : List Char} (h : t.Spelt text)
    (ht : t.isComment = false) (hblank : ∀ ch ∈ before ++ after, Text.isBlank ch = true)
    (hrest : c.rest = before ++ (text ++ after)) :
    ∃ s q, c.tokens = ⟨[⟨t, s⟩, ⟨.eof, .point q⟩], none⟩ := by
  obtain ⟨hbefore, hafter⟩ := List.forall_mem_append.1 hblank
  have hgoesOn : t.goesOn after = false := by
    rcases after with _ | ⟨d, after⟩
    · exact t.goesOn_nil
    · exact Token.goesOn_blank ht (hafter d List.mem_cons_self) after
  have hreads := readsToken_of_spelt h hgoesOn (c.position + bytes before)
  rcases text with _ | ⟨ch, us⟩
  · exact absurd rfl h.ne_nil
  have hskip : c.skipBlanks = ⟨c.position + bytes before, ch :: us ++ after⟩ := by
    have hhead : ∀ d ∈ (ch :: us ++ after).head?, Text.isBlank d = false := by
      rintro _ ⟨⟩
      exact h.head.1
    obtain ⟨htake, hdrop⟩ := takeWhile_dropWhile_append hbefore hhead
    rw [skipBlanks, hrest, htake, hdrop]
  have hend (p : Nat) : (⟨p, after⟩ : Cursor).skipBlanks.rest = [] :=
    List.dropWhile_eq_nil_iff.2 hafter
  rw [tokens_of_yields (hreads.yields c hskip), tokens_of_finish (next_eq_finish (hend _))]
  exact ⟨_, _, rfl⟩

end Cursor

namespace Token

/-- A text has one token if that and the end mark are read from it. -/
theorem only?_eq_some_iff_tokens {text : List Char} {t : Token} :
    only? text = some t ↔
      ∃ s q, (Cursor.start text).tokens = ⟨[⟨t, s⟩, ⟨.eof, .point q⟩], none⟩ := by
  constructor
  · intro h
    unfold only? at h
    split at h
    next u after hafter hn =>
      split at h
      next p hp =>
        rw [Cursor.tokens_of_yields ⟨hafter, hn⟩, Cursor.tokens_of_finish hp]
        cases u
        cases h
        exact ⟨_, _, rfl⟩
      next => cases h
    next => cases h
  · rintro ⟨s, q, htokens⟩
    cases hn : (Cursor.start text).next with
    | finish p =>
      rw [Cursor.tokens_of_finish hn] at htokens
      cases htokens
    | error e =>
      rw [Cursor.tokens] at htokens
      simp only [hn] at htokens
      cases htokens
    | token u after hafter =>
      rw [Cursor.tokens_of_yields ⟨hafter, hn⟩] at htokens
      obtain ⟨rfl, hend⟩ := List.cons.inj (congrArg (·.tokens) htokens)
      have hrest := Cursor.rest_eq_of_tokens_eof (congrArg (List.map (·.token)) hend)
      simp only [only?, hn, Cursor.next_eq_finish hrest]

/-- A text has one token, no string and no comment, if that is the token of the trimmed text. -/
theorem only?_eq_some_iff {text : List Char} {t : Token} (hstring : ∀ parts, t ≠ .string parts)
    (hcomment : t.isComment = false) : only? text = some t ↔ t.Spelt (Text.trim text) := by
  rw [only?_eq_some_iff_tokens]
  constructor
  · rintro ⟨s, q, htokens⟩
    obtain ⟨before, word, after, htext, hspelt, hblank⟩ :=
      Cursor.exists_spelt_of_tokens hstring (congrArg (·.tokens.map (·.token)) htokens)
    have htrim : Text.trim text = word := by
      rw [show text = _ from htext]
      exact Text.trim_append hblank fun c hc => (hspelt.forall_mem hcomment c hc).1
    rwa [htrim]
  · intro hspelt
    obtain ⟨before, after, htext, hblank⟩ := Text.exists_trim text
    exact Cursor.exists_tokens_of_spelt hspelt hcomment hblank htext

end Token

/-! ## Programs of one token -/

namespace Program

theorem ofTokens_atom {t : Spanned} {e : Expr} (h : t.atom? = some e) (s : Span) :
    ofTokens ⟨[t, ⟨.eof, s⟩], none⟩ = .ok ⟨e, []⟩ := by
  obtain ⟨token, span⟩ := t
  cases token with
  | int | float | ident =>
    cases h
    cbv
  | keyword w =>
    cases w <;> cases h <;> cbv
  | _ => cases h

/-- A text of one token that is a form by itself is a program of that form. -/
theorem parse_of_only? {text : String} {t : Token} (h : Token.only? text.toList = some t) :
    ∃ s, ∀ e, Spanned.atom? ⟨t, s⟩ = some e → parse text = .ok ⟨e, []⟩ := by
  obtain ⟨s, q, htokens⟩ := Token.only?_eq_some_iff_tokens.1 h
  refine ⟨s, fun e he => ?_⟩
  rw [parse, Tokens.ofText, htokens]
  exact ofTokens_atom he _

end Program

end ConfigExpr
