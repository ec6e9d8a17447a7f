import ConfigExpr.Proofs.Moved
import ConfigExpr.Proofs.Proper

/-!
# Tokens tile their source

The tokens of a source, up to its end or its first lexical error, cut it into words with blank
characters between them. The tokens in a string follow one another inside it, and each token is
what its own text is read as (`Tokens.ofText_tiles`).
-/

namespace ConfigExpr

/-- The tokens cut a text, which begins at byte position `p`, into words after blank characters. The
end mark stands for the empty word at the end of the text. -/
def Tiles (p : Nat) (source : List Char) : List Spanned → Prop
  | [] => True
  | t :: ts => ∃ gap word rest, source = gap ++ (word ++ rest) ∧
      (∀ c ∈ gap, Text.isBlank c = true) ∧
      t.span = ⟨p + bytes gap, p + bytes gap + bytes word⟩ ∧
      (word = [] ↔ t.token = .eof) ∧ (t.token = .eof → rest = [] ∧ ts = []) ∧
      Tiles t.span.stop rest ts

theorem bytes_pos {text : List Char} (h : text ≠ []) : 0 < bytes text := by
  rcases text with _ | ⟨c, cs⟩
  · exact absurd rfl h
  · exact Nat.add_pos_left c.utf8Size_pos _

namespace Tiles

variable {p : Nat} {source : List Char} {t : Spanned} {ts : List Spanned}

theorem le_start (h : Tiles p source ts) : ∀ t ∈ ts, p ≤ t.span.start := by
  induction ts generalizing p source with
  | nil => exact List.forall_mem_nil _
  | cons t ts ih =>
    obtain ⟨gap, word, rest, -, -, hspan, -, -, hts⟩ := h
    have hstart : p ≤ t.span.start := by simp [hspan]
    have hstop : t.span.start ≤ t.span.stop := by simp [hspan]
    refine List.forall_mem_cons.2 ⟨hstart, fun u hu => ?_⟩
    exact Nat.le_trans (Nat.le_trans hstart hstop) (ih hts u hu)

/-- The tokens are in strictly increasing order, and do not overlap. -/
theorem pairwise (h : Tiles p source ts) :
    ts.Pairwise fun t u => t.span.start < u.span.start ∧ t.span.stop ≤ u.span.start := by
  induction ts generalizing p source with
  | nil => exact .nil
  | cons t ts ih =>
    obtain ⟨gap, word, rest, -, -, hspan, hword, heof, hts⟩ := h
    refine .cons (fun u hu => ?_) (ih hts)
    have hne : word ≠ [] := by
      intro hnil
      rw [(heof (hword.1 hnil)).2] at hu
      cases hu
    have hpos := bytes_pos hne
    have hle := hts.le_start u hu
    simp only [hspan] at hle ⊢
    omega

theorem chain (h : Tiles p source ts) : Span.Chain p (p + bytes source) (ts.map (·.span)) := by
  induction ts generalizing p source with
  | nil => exact Nat.le_add_right _ _
  | cons t ts ih =>
    obtain ⟨gap, word, rest, rfl, -, hspan, -, -, hts⟩ := h
    have hchain := ih hts
    simp only [hspan] at hchain
    refine ⟨by simp [hspan], by simp [hspan], ?_⟩
    simp only [hspan, bytes_append, ← Nat.add_assoc] at hchain ⊢
    exact hchain

end Tiles

namespace Cursor

theorem ne_eof_of_yields_next {c after : Cursor} {t : Spanned} (h : c.next.Yields t after) :
    t.token ≠ .eof := by
  intro heof
  rcases proper_of_yields_next h with hproper | hcomment
  · rw [heof] at hproper
    exact hproper
  · rw [heof] at hcomment
    cases hcomment

theorem tiles_tokens (c : Cursor) : Tiles c.position c.rest c.tokens.tokens := by
  fun_induction tokens c with
  | case1 c p hn =>
    obtain ⟨hrest, rfl⟩ := finish_of_next hn
    have hskip := c.passes_skipBlanks.rest
    rw [hrest] at hskip
    exact ⟨_, [], [], hskip, fun _ => List.mem_takeWhile_imp, rfl, by simp, by simp, trivial⟩
  | case2 c e hn => trivial
  | case3 c t after hafter hn others ih =>
    have hreads := readsToken_of_yields ⟨hafter, hn⟩
    obtain ⟨hspan, word, hne, hword⟩ := hreads.extent
    have hskip := c.passes_skipBlanks
    have heof := ne_eof_of_yields_next ⟨hafter, hn⟩
    refine ⟨c.rest.takeWhile Text.isBlank, word, after.rest, ?_,
      fun _ => List.mem_takeWhile_imp, ?_, ?_, ?_, ?_⟩
    · rw [← hword.rest]
      exact hskip.rest
    · rw [hspan, hword.position, hskip.position]
    · exact iff_of_false hne heof
    · exact fun h => absurd h heof
    · rw [hspan]
      exact ih

theorem exists_of_error_eq_none {c : Cursor} (h : c.tokens.error = none) :
    ∃ body, c.tokens.tokens = body ++ [⟨.eof, .point (c.position + bytes c.rest)⟩] := by
  fun_induction tokens c with
  | case1 c p hn =>
    obtain ⟨hrest, rfl⟩ := finish_of_next hn
    rw [← c.passes_skipBlanks.position_add, hrest]
    exact ⟨[], rfl⟩
  | case2 c e hn => cases h
  | case3 c t after hafter hn others ih =>
    obtain ⟨body, hbody⟩ := ih h
    obtain ⟨_, hpasses⟩ := reaches_of_yields_next ⟨hafter, hn⟩
    rw [← hpasses.position_add]
    exact ⟨t :: body, congrArg (t :: ·) hbody⟩

variable {source : List Char}

theorem everywhere_tokens {c : Cursor} (hc : (start source).Reaches c) :
    ∀ t ∈ c.tokens.tokens, t.Everywhere (Spanned.ReadIn source) := by
  fun_induction tokens c with
  | case1 c p hn =>
    obtain ⟨-, rfl⟩ := finish_of_next hn
    rintro t (_ | ⟨_, ⟨⟩⟩)
    exact .intro ⟨_, hc.trans ⟨_, c.passes_skipBlanks⟩, .inr rfl⟩ (List.forall_mem_nil _)
  | case2 c e hn => exact List.forall_mem_nil _
  | case3 c t after hafter hn others ih =>
    have hreads := readsToken_of_yields ⟨hafter, hn⟩
    have hafters := ih (hc.trans (reaches_of_yields_next ⟨hafter, hn⟩))
    exact List.forall_mem_cons.2 ⟨hreads.everywhere (hc.trans ⟨_, c.passes_skipBlanks⟩), hafters⟩

theorem within_of_error_eq_some {c : Cursor} {e : LexError} (hc : (start source).Reaches c)
    (h : c.tokens.error = some e) : e.span.Within source := by
  fun_induction tokens c with
  | case1 c p hn => cases h
  | case2 c e' hn =>
    cases h
    have hskip := hc.trans ⟨_, c.passes_skipBlanks⟩
    exact ((failsToken_of_next hn).covers.of_reaches hskip).within
  | case3 c t after hafter hn others ih =>
    exact ih (hc.trans (reaches_of_yields_next ⟨hafter, hn⟩)) h

/-! ## Tokens alone -/

theorem ReadsToken.skipBlanks_eq {c after : Cursor} {t : Spanned} (h : ReadsToken c t after) :
    c.skipBlanks = c := by
  cases h with
  | lexeme hb => exact skipBlanks_of_not_blank hb
  | block | line => exact skipBlanks_of_not_blank rfl

theorem ReadsToken.unique {c after after' : Cursor} {t t' : Spanned} (h : ReadsToken c t after)
    (h' : ReadsToken c t' after') : t = t' := by
  obtain ⟨_, hn⟩ := h.yields c h.skipBlanks_eq
  obtain ⟨_, hn'⟩ := h'.yields c h.skipBlanks_eq
  cases hn.symm.trans hn'
  rfl

/-- A token that is read up to the end of a text is the only one there. -/
theorem ReadsToken.tokens {c : Cursor} {t : Spanned} {q : Nat} (h : ReadsToken c t ⟨q, []⟩) :
    c.tokens = ⟨[t, ⟨.eof, .point q⟩], none⟩ := by
  have hfinish : (⟨q, []⟩ : Cursor).next = .finish q := next_eq_finish rfl
  rw [tokens_of_yields (h.yields c h.skipBlanks_eq), tokens_of_finish hfinish]

end Cursor

mutual

theorem Token.mapSpans_id : ∀ t : Token, t.mapSpans (fun s => s) = t
  | .string parts => congrArg Token.string (StringPart.mapSpansAll_id parts)
  | .ident _ | .int _ | .float _ | .comment | .keyword _ | .mark _ | .eof => rfl

theorem StringPart.mapSpans_id : ∀ p : StringPart, p.mapSpans (fun s => s) = p
  | .text _ => rfl
  | .code tokens => congrArg StringPart.code (Spanned.mapSpansAll_id tokens)

theorem StringPart.mapSpansAll_id :
    ∀ ps : List StringPart, StringPart.mapSpansAll (fun s => s) ps = ps
  | [] => rfl
  | p :: ps => congrArg₂ List.cons (StringPart.mapSpans_id p) (StringPart.mapSpansAll_id ps)

theorem Spanned.mapSpans_id : ∀ t : Spanned, t.mapSpans (fun s => s) = t
  | ⟨t, s⟩ => congrArg (Spanned.mk · s) (Token.mapSpans_id t)

theorem Spanned.mapSpansAll_id :
    ∀ ts : List Spanned, Spanned.mapSpansAll (fun s => s) ts = ts
  | [] => rfl
  | t :: ts => congrArg₂ List.cons (Spanned.mapSpans_id t) (Spanned.mapSpansAll_id ts)

end

/-- The text of a token alone is read as the token, moved to the start. -/
theorem Cursor.ReadsToken.exists_alone {c after : Cursor} {t : Spanned} (h : ReadsToken c t after) :
    ∃ word alone, c.Passes word after ∧ ReadsToken ⟨0, word⟩ alone ⟨bytes word, []⟩ ∧
      alone.mapSpans (Span.move (· + c.position)) = t := by
  have hnot : t.token.goesOn [] = true → t.token.goesOn after.rest = true := by
    simp [Token.goesOn_nil]
  obtain ⟨word, -, hword, hmove⟩ := h.exists_move (slides_sub_self c.position)
  have halone := hmove [] hnot
  rw [List.append_nil, Nat.sub_self, hword.position, Nat.add_sub_cancel_left] at halone
  refine ⟨word, _, hword, halone, ?_⟩
  -- Moved back, the token is read from the text that it was read from in its place.
  obtain ⟨us, -, hus, hback⟩ := halone.exists_move (slides_add c.position _)
  obtain ⟨vs, -, hvs, hself⟩ := h.exists_move (g := fun n => n) fun _ => rfl
  obtain rfl : word = us := by simpa using hus.rest
  obtain rfl := hvs.unique hword
  have hback := hback [] id
  rw [Nat.zero_add] at hback
  exact (hback.unique (hself [] hnot)).trans t.mapSpans_id

namespace Spanned

/-- The token is what the text it marks is read as alone, moved to its place. -/
def ReadAlone (source : List Char) (t : Spanned) : Prop :=
  ∃ word alone, t.span.Marks source word ∧
    Tokens.ofText (String.ofList word) = ⟨[alone, ⟨.eof, .point (bytes word)⟩], none⟩ ∧
    alone.mapSpans (Span.move (· + t.span.start)) = t

variable {source : List Char} {t : Spanned}

theorem ReadIn.within (h : t.ReadIn source) : t.span.Within source := by
  obtain ⟨c, hc, ⟨after, ht⟩ | rfl⟩ := h
  · obtain ⟨hspan, word, -, hword⟩ := ht.extent
    exact hspan ▸ (hword.marks hc).within
  · exact (Cursor.Passes.marks hc (⟨rfl, rfl⟩ : c.Passes [] c)).within

theorem ReadIn.chain (h : t.ReadIn source) :
    Span.Chain t.span.start t.span.stop (t.inner.map (·.span)) := by
  obtain ⟨c, -, ⟨after, ht⟩ | rfl⟩ := h
  · exact ht.chain
  · exact Nat.le_refl _

theorem ReadIn.start_lt_stop (h : t.ReadIn source) (ht : t.token ≠ .eof) :
    t.span.start < t.span.stop := by
  obtain ⟨c, -, ⟨after, ht⟩ | rfl⟩ := h
  · obtain ⟨hspan, word, hne, hword⟩ := ht.extent
    rw [hspan, hword.position]
    exact Nat.lt_add_of_pos_right (bytes_pos hne)
  · exact absurd rfl ht

theorem ReadIn.alone (h : t.ReadIn source) (ht : t.token ≠ .eof) : t.ReadAlone source := by
  obtain ⟨c, hc, ⟨after, ht⟩ | rfl⟩ := h
  · obtain ⟨word, alone, hword, hreads, hback⟩ := ht.exists_alone
    obtain ⟨hspan, -⟩ := ht.extent
    refine ⟨word, alone, hspan ▸ hword.marks hc, ?_, by rw [hspan]; exact hback⟩
    rw [Tokens.ofText, String.toList_ofList]
    exact hreads.tokens
  · exact absurd rfl ht

end Spanned

/-- The tokens of a text tile it, in strictly increasing order, up to the end mark at its end or to
a lexical error in it. At any depth a token lies in the text, the tokens in it follow one another
inside it, and it is what its own text is read as. -/
theorem Tokens.ofText_tiles (text : String) :
    Tiles 0 text.toList (ofText text).tokens ∧
      (ofText text).tokens.Pairwise
        (fun t u => t.span.start < u.span.start ∧ t.span.stop ≤ u.span.start) ∧
      ((ofText text).error = none →
        ∃ body, (ofText text).tokens = body ++ [⟨.eof, .point (bytes text.toList)⟩]) ∧
      (∀ t ∈ (ofText text).tokens, t.Everywhere fun u =>
        u.span.Within text.toList ∧
          Span.Chain u.span.start u.span.stop (u.inner.map (·.span)) ∧
          (u.token ≠ .eof → u.span.start < u.span.stop ∧ u.ReadAlone text.toList)) ∧
      ∀ e, (ofText text).error = some e → e.span.Within text.toList := by
  have htiles := (Cursor.start text.toList).tiles_tokens
  refine ⟨htiles, htiles.pairwise, fun h => ?_, fun t ht => ?_, fun e he => ?_⟩
  · obtain ⟨body, hbody⟩ := Cursor.exists_of_error_eq_none h
    rw [Cursor.start, Nat.zero_add] at hbody
    exact ⟨body, hbody⟩
  · refine (Cursor.everywhere_tokens (.refl _) t ht).imp fun u hu => ⟨hu.within, hu.chain, ?_⟩
    exact fun hne => ⟨hu.start_lt_stop hne, hu.alone hne⟩
  · exact Cursor.within_of_error_eq_some (.refl _) he

end ConfigExpr
