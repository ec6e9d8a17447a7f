import ConfigExpr.Command.Session
import ConfigExpr.Proofs.Steps
import ConfigExpr.Proofs.Tiles

/-!
# Reading on from the end of a token

Nothing that stands before the end of a token decides how the text after it is read. So the text
after a token, read alone, has the remaining tokens of its source, or the lexical error of the
source, moved to its own start, and a line that binds a name is cut after the equals sign
(`Tokens.ofText_resumes`).
-/

namespace ConfigExpr

/-- From the byte position on the source goes on with the text given. Read alone this has the tokens
and the error given, with all positions lowered by that of its start. -/
def Resumes (source : List Char) (p : Nat) (suffix : List Char) (ts : Tokens) : Prop :=
  ∃ before, source = before ++ suffix ∧ p = bytes before ∧
    (Tokens.ofText (String.ofList suffix)).move (· + p) = ts

namespace Cursor

variable {source : List Char} {c after : Cursor} {t : Spanned}

theorem Reaches.resumes (h : (start source).Reaches c) :
    Resumes source c.position c.rest c.tokens := by
  obtain ⟨before, hsource, hposition⟩ := h.exists_before
  refine ⟨before, hsource, hposition, ?_⟩
  have hmove := tokens_move (c := start c.rest) (slides_add c.position 0)
  rw [Cursor.move, start, Nat.zero_add] at hmove
  rw [Tokens.ofText, String.toList_ofList]
  exact hmove.symm

theorem yields_or_finish_of_tokens {ts : List Spanned} (h : c.tokens.tokens = t :: ts) :
    (∃ after, c.next.Yields t after ∧ after.tokens.tokens = ts) ∨
      ∃ p, c.next = .finish p ∧ t = ⟨.eof, .point p⟩ ∧ ts = [] := by
  rw [tokens] at h
  split at h
  next p hn =>
    obtain ⟨rfl, rfl⟩ := List.cons.inj h
    exact .inr ⟨p, hn, rfl, rfl⟩
  next => cases h
  next u after hafter hn =>
    obtain ⟨rfl, hts⟩ := List.cons.inj h
    exact .inl ⟨after, ⟨hafter, hn⟩, hts⟩

theorem tokens_eq_cons_iff {ts : List Spanned} (ht : t.token ≠ .eof) :
    c.tokens.tokens = t :: ts ↔ ∃ after, c.next.Yields t after ∧ after.tokens.tokens = ts := by
  refine ⟨fun h => ?_, ?_⟩
  · rcases yields_or_finish_of_tokens h with hyields | ⟨p, -, rfl, -⟩
    · exact hyields
    · exact absurd rfl ht
  · rintro ⟨after, hyields, rfl⟩
    rw [tokens_of_yields hyields]

/-- Where a token ends the lexer goes on with the tokens after it. The end mark is read again. -/
theorem exists_of_tokens_append {ts us : List Spanned} (h : c.tokens.tokens = ts ++ t :: us) :
    ∃ after, c.Reaches after ∧ after.position = t.span.stop ∧
      after.tokens = ⟨if t.token.isEof then [t] else us, c.tokens.error⟩ := by
  induction ts generalizing c with
  | nil =>
    rcases yields_or_finish_of_tokens h with ⟨after, hyields, rfl⟩ | ⟨p, hn, rfl, -⟩
    · refine ⟨after, reaches_of_yields_next hyields, position_of_yields_next hyields, ?_⟩
      rw [if_neg (mt Token.isEof_iff.1 (ne_eof_of_yields_next hyields)), tokens_of_yields hyields]
    · obtain ⟨hrest, rfl⟩ := finish_of_next hn
      have hskip := c.passes_skipBlanks
      rw [eq_mk_of_rest hrest] at hskip
      have hfinish := tokens_of_finish (next_eq_finish (c := ⟨c.skipBlanks.position, []⟩) rfl)
      refine ⟨_, ⟨_, hskip⟩, rfl, ?_⟩
      rw [hfinish, tokens_of_finish hn]
      rfl
  | cons u ts ih =>
    rcases yields_or_finish_of_tokens h with ⟨mid, hyields, hmid⟩ | ⟨p, -, -, hnil⟩
    · obtain ⟨after, hafter, hposition, htokens⟩ := ih hmid
      refine ⟨after, (reaches_of_yields_next hyields).trans hafter, hposition, ?_⟩
      rw [htokens, tokens_of_yields hyields]
    · exact absurd hnil (List.append_ne_nil_of_right_ne_nil _ (List.cons_ne_nil _ _))

end Cursor

/-! ## Lines that bind a name -/

section

variable {line : List Char} {name : String} {s s' : Span} {mid after : Cursor}

theorem tokens_eq_binding_iff {c : Cursor} {others : List Spanned} :
    c.tokens.tokens = ⟨.ident name, s⟩ :: ⟨.mark .equals, s'⟩ :: others ↔ ∃ mid after,
      c.next.Yields ⟨.ident name, s⟩ mid ∧ mid.next.Yields ⟨.mark .equals, s'⟩ after ∧
        after.tokens.tokens = others := by
  simp only [Cursor.tokens_eq_cons_iff (t := ⟨.ident name, s⟩) nofun,
    Cursor.tokens_eq_cons_iff (t := ⟨.mark .equals, s'⟩) nofun, exists_and_left]

theorem splitBinding_of_yields (hname : (Cursor.start line).next.Yields ⟨.ident name, s⟩ mid)
    (hequals : mid.next.Yields ⟨.mark .equals, s'⟩ after) :
    splitBinding line = (some name, after.rest) := by
  obtain ⟨_, hname⟩ := hname
  obtain ⟨_, hequals⟩ := hequals
  simp only [splitBinding, hname, hequals]

theorem splitBinding_cases (line : List Char) :
    (∃ name s s' mid after, (Cursor.start line).next.Yields ⟨.ident name, s⟩ mid ∧
      mid.next.Yields ⟨.mark .equals, s'⟩ after) ∨ splitBinding line = (none, line) := by
  unfold splitBinding
  split
  · next name s mid hmid hname =>
    split
    · next s' after hafter hequals =>
      exact .inl ⟨name, s, s', mid, after, ⟨hmid, hname⟩, ⟨hafter, hequals⟩⟩
    · exact .inr rfl
  · exact .inr rfl

end

/-- Read alone, the text after a token of a source has the remaining tokens of the source or its
lexical error. A line binds a name where its first tokens are the name and an equals sign, and is
cut after these. Any other line is left whole. -/
theorem Tokens.ofText_resumes (text : String) :
    (∀ before t others, (ofText text).tokens = before ++ t :: others →
      ∃ suffix, Resumes text.toList t.span.stop suffix
        ⟨if t.token.isEof then [t] else others, (ofText text).error⟩) ∧
    (∀ name, (splitBinding text.toList).1 = some name ↔ ∃ s s' others,
      (ofText text).tokens = ⟨.ident name, s⟩ :: ⟨.mark .equals, s'⟩ :: others) ∧
    (∀ name s s' others,
      (ofText text).tokens = ⟨.ident name, s⟩ :: ⟨.mark .equals, s'⟩ :: others →
      Resumes text.toList s'.stop (splitBinding text.toList).2 ⟨others, (ofText text).error⟩) ∧
    ((splitBinding text.toList).1 = none → (splitBinding text.toList).2 = text.toList) := by
  refine ⟨fun before t others h => ?_, fun name => ⟨fun h => ?_, ?_⟩, ?_, fun h => ?_⟩
  · obtain ⟨after, hreaches, hposition, htokens⟩ := Cursor.exists_of_tokens_append h
    exact ⟨after.rest, hposition ▸ htokens ▸ hreaches.resumes⟩
  · rcases splitBinding_cases text.toList with ⟨_, s, s', mid, after, hname, hequals⟩ | hnone
    · rw [splitBinding_of_yields hname hequals] at h
      obtain rfl := Option.some.inj h
      exact ⟨s, s', _, tokens_eq_binding_iff.2 ⟨mid, after, hname, hequals, rfl⟩⟩
    · rw [hnone] at h
      cases h
  · rintro ⟨s, s', others, h⟩
    obtain ⟨mid, after, hname, hequals, -⟩ := tokens_eq_binding_iff.1 h
    rw [splitBinding_of_yields hname hequals]
  · intro name s s' others h
    obtain ⟨mid, after, hname, hequals, rfl⟩ := tokens_eq_binding_iff.1 h
    have hreaches := (Cursor.reaches_of_yields_next hname).trans
      (Cursor.reaches_of_yields_next hequals)
    have herror : (ofText text).error = after.tokens.error := by
      rw [ofText, Cursor.tokens_of_yields hname, Cursor.tokens_of_yields hequals]
    rw [splitBinding_of_yields hname hequals, herror, ← Cursor.position_of_yields_next hequals]
    exact hreaches.resumes
  · rcases splitBinding_cases text.toList with ⟨_, _, _, _, _, hname, hequals⟩ | hnone
    · rw [splitBinding_of_yields hname hequals] at h
      cases h
    · rw [hnone]

/-- The line binds a name and has a character that begins no token. -/
theorem Tokens.ofText_resumes_binding :
    let text := "f = \"é\" %"
    let error : LexError := ⟨.unrecognized '%', ⟨9, 10⟩⟩
    splitBinding text.toList = (some "f", " \"é\" %".toList) ∧
      Resumes text.toList 3 " \"é\" %".toList ⟨[⟨.string [.text "é"], ⟨4, 8⟩⟩], some error⟩ ∧
      ∃ suffix, Resumes text.toList 8 suffix ⟨[], some error⟩ := by
  intro text error
  let others : List Spanned := [⟨.string [.text "é"], ⟨4, 8⟩⟩]
  have htokens : Tokens.ofText text =
      ⟨⟨.ident "f", ⟨0, 1⟩⟩ :: ⟨.mark .equals, ⟨2, 3⟩⟩ :: others, some error⟩ := by cbv
  have hsplit : splitBinding text.toList = (some "f", " \"é\" %".toList) := by cbv
  obtain ⟨hends, -, hbinding, -⟩ := Tokens.ofText_resumes text
  rw [htokens] at hends hbinding
  refine ⟨hsplit, ?_, hends [⟨.ident "f", ⟨0, 1⟩⟩, ⟨.mark .equals, ⟨2, 3⟩⟩] _ [] rfl⟩
  have hline := hbinding "f" ⟨0, 1⟩ ⟨2, 3⟩ others rfl
  rwa [hsplit] at hline

end ConfigExpr
