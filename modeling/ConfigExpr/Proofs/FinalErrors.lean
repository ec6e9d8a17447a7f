import ConfigExpr.Proofs.DecidedParse
import ConfigExpr.Proofs.EndMarks
import ConfigExpr.Proofs.Nesting

/-!
# Errors that no text repairs

A parse error that is not at the end of the source is decided by the tokens up to the one that it is
in. Whatever tokens follow these, the parser reports the same error (`Program.error_final`).
-/

namespace ConfigExpr

namespace Spanned

variable {source : List Char} {t u : Spanned} {e : ParseError}

/-- The tokens in a string begin after its opening quote. -/
theorem ReadIn.start_lt_inner (h : t.ReadIn source) :
    ∀ u ∈ t.inner, t.span.start < u.span.start := by
  intro u hu
  obtain ⟨c, -, ⟨after, hreads⟩ | rfl⟩ := h
  · cases hreads with
    | lexeme _ _ hl =>
      rw [inner_eq_nil_of_lexeme hl] at hu
      cases hu
    | block hstring =>
      have hle := hstring.chain.le_start _ (List.mem_map_of_mem hu)
      exact Nat.lt_of_lt_of_le (Nat.lt_add_of_pos_right (by decide)) hle
    | line _ hstring =>
      have hle := hstring.chain.le_start _ (List.mem_map_of_mem hu)
      exact Nat.lt_of_lt_of_le (Nat.lt_succ_self _) hle
  · cases hu

/-- The tokens of the source that begin after a byte position, and the errors at one of them. -/
def reportsAfter (source : List Char) (position : Nat) : Reports where
  holds u := u.ReadIn source ∧ position < u.span.start
  allows e := ∃ u : Spanned, (u.ReadIn source ∧ position < u.span.start) ∧ u.span = e.span
  token hu _ _ := ⟨_, hu, rfl⟩
  code hu hstring hcode := .inl (hu.1.exists_eof hstring hcode)

/-- An error in the code of a string is at a token after the opening quote. -/
theorem exists_of_parseAll_error {parts : List StringPart} (ht : t.Everywhere (ReadIn source))
    (hstring : t.token = .string parts) (h : Segment.parseAll parts = .error e) :
    ∃ u : Spanned, (u.ReadIn source ∧ t.span.start < u.span.start) ∧ u.span = e.span := by
  have hcode : ∀ tokens, .code tokens ∈ parts →
      (reportsAfter source t.span.start).Holds tokens ∧ ((∃ u ∈ tokens, u.token = .eof) ∨
        ∀ e, (reportsAfter source t.span.start).allows e) := by
    intro tokens hmem
    refine ⟨fun u hu => ?_, .inl (ht.self.exists_eof hstring hmem)⟩
    have hinner : u ∈ t.inner := by
      rw [inner, hstring]
      exact List.mem_flatMap.2 ⟨_, hmem, hu⟩
    have hlt := ht.self.start_lt_inner u hinner
    have hu := ht.inner hinner
    exact (hu.and_contains .self).imp fun v hv =>
      ⟨hv.1, Nat.lt_of_lt_of_le hlt (hv.2.start_le hu)⟩
  have hmeets := allowed_parseAll_segments (fun _ => Expr.parse_advances _) (Nat.le_refl _) hcode
  rw [h] at hmeets
  cases hmeets with
  | error herror => exact herror.1

end Spanned

namespace ParseError

variable {e : ParseError} {source : List Char} {t : Spanned}

/-- An error at a token is not before it. -/
theorem At.span_cases (h : e.At t) (ht : t.Everywhere (Spanned.ReadIn source))
    (hfault : ∀ name, e.fault ≠ .duplicateParameter name) :
    e.span = t.span ∨ t.span.start < e.span.start ∧ e.span.start ≤ e.span.stop := by
  cases h with
  | token h => exact .inl h
  | code hstring hparts =>
    obtain ⟨u, ⟨hread, hlt⟩, hspan⟩ := Spanned.exists_of_parseAll_error ht hstring hparts
    rw [← hspan]
    exact .inr ⟨hlt, hread.chain.le⟩
  | repeated h => exact absurd h (hfault _)

end ParseError

namespace Program

variable {source : String} {pre post : List Spanned} {t : Spanned} {e : ParseError}

theorem ofTokens_eq_error_iff {ts : List Spanned} :
    ofTokens ⟨ts, none⟩ = .error e ↔
      ∃ f, wholeRule (withoutComments ts) = .error f ∧ f.error = e := by
  rw [ofTokens, ← result_parseWhole]
  cases Expr.parseWhole (withoutComments ts) <;> simp [Outcome.result]

/-- The parser does not come to the end of tokens with an end mark. -/
theorem rest_ne_nil_of_error {f : Failure} (hlex : (Tokens.ofText source).error = none)
    (h : wholeRule (withoutComments (Tokens.ofText source).tokens) = .error f) : f.rest ≠ [] := by
  obtain ⟨z, hz, heof⟩ := exists_eof_withoutComments hlex
  rw [← result_parseWhole] at h
  rcases Expr.parseWhole_cases (holds_withoutComments source) with
    ⟨e, rest, -, _, hok⟩ | ⟨f', hf', herror⟩
  · rw [hok] at h
    cases h
  · rw [herror] at h
    cases h
    exact List.ne_nil_of_mem (hf'.leaves.mem_of_eof hz heof)

/-- Tokens of a source fail at one of them, and what follows that one does not matter. -/
theorem error_decided {ts : List Spanned} (hlex : (Tokens.ofText source).error = none)
    (hts : withoutComments (Tokens.ofText source).tokens = ts)
    (h : ofTokens ⟨ts, none⟩ = .error e) :
    ∃ taken l rest, ts = taken ++ l :: rest ∧ e.At l ∧
      ∀ us, ofTokens ⟨taken ++ l :: us, none⟩ = .error e := by
  have hcomment : ∀ u ∈ ts, (!u.token.isComment) = true := by
    intro u hu
    rw [← hts] at hu
    exact (List.mem_filter.1 hu).2
  obtain ⟨f, hf, rfl⟩ := ofTokens_eq_error_iff.1 h
  rw [withoutComments, List.filter_eq_self.2 hcomment] at hf
  have hrest := rest_ne_nil_of_error hlex (hts ▸ hf)
  cases decided_wholeRule ts with
  | ok hok => cases hok.symm.trans hf
  | @error f' taken hf' hsplit hstop =>
    cases hf'.symm.trans hf
    obtain ⟨l, rest, hl⟩ := List.exists_cons_of_ne_nil hrest
    obtain ⟨hat, hagain⟩ := hstop l rest hl
    rw [hl] at hsplit
    refine ⟨taken, l, rest, hsplit, hat, fun us => ofTokens_eq_error_iff.2 ?_⟩
    have hkept : withoutComments (taken ++ l :: us) = taken ++ l :: withoutComments us := by
      rw [hsplit, List.forall_mem_append, List.forall_mem_cons] at hcomment
      rw [withoutComments, List.filter_append, List.filter_eq_self.2 hcomment.1,
        List.filter_cons, if_pos hcomment.2.1]
      rfl
    rw [hkept]
    exact hagain _

/-- An error at a token that begins after another one has ended does not lie in that one. -/
theorem not_inside_of_at {l : Spanned} (hl : l ∈ (Tokens.ofText source).tokens) (hat : e.At l)
    (hfault : ∀ name, e.fault ≠ .duplicateParameter name)
    (hend : e.span ≠ .point (bytes source.toList)) (hbefore : t.span.stop ≤ l.span.start) :
    ¬ e.span.Inside t.span := by
  rintro ⟨-, hstop⟩
  have hread := everywhere_readIn l hl
  rcases hat.span_cases hread hfault with hspan | ⟨hlt, hle⟩
  · rw [hspan] at hstop hend
    by_cases heof : l.token = .eof
    · exact hend (span_eq_of_eof hl heof)
    · have := hread.self.start_lt_stop heof
      omega
  · omega

/-- A parse error that is in a token is reported whatever follows that token, with or without an
end mark. One at the end of the source is left out, even where a token ends there: the text may go
on in a way that repairs it. A repeated parameter is reported after its list. -/
theorem error_final (hlex : (Tokens.ofText source).error = none)
    (hts : withoutComments (Tokens.ofText source).tokens = pre ++ t :: post)
    (he : ofTokens ⟨pre ++ t :: post, none⟩ = .error e)
    (hfault : ∀ name, e.fault ≠ .duplicateParameter name) (hplace : e.span.Inside t.span)
    (hend : e.span ≠ .point (bytes source.toList)) (us : List Spanned) :
    ofTokens ⟨pre ++ t :: us, none⟩ = .error e := by
  obtain ⟨taken, l, rest, hsplit, hat, hfinal⟩ := error_decided hlex hts he
  -- The token that decides the error does not stand after the one that the error is in.
  have hpost : l ∉ post := by
    intro hl
    have hmem : l ∈ (Tokens.ofText source).tokens := by
      refine List.mem_of_mem_filter (p := (!·.token.isComment)) ?_
      change l ∈ withoutComments (Tokens.ofText source).tokens
      rw [hts]
      simp [hl]
    have hpairwise := (laid_withoutComments source).chain.pairwise
    rw [hts, List.map_append, List.map_cons, List.pairwise_append, List.pairwise_cons] at hpairwise
    have hbefore := hpairwise.2.1.1 _ (List.mem_map_of_mem hl)
    exact not_inside_of_at hmem hat hfault hend hbefore hplace
  rcases List.append_eq_append_iff.1 hsplit with ⟨more, rfl, hmore⟩ | ⟨more, rfl, hmore⟩
  · cases more with
    | nil =>
      cases hmore
      simpa using hfinal us
    | cons u more =>
      cases hmore
      exact absurd (by simp) hpost
  · cases more with
    | nil =>
      cases hmore
      simpa using hfinal us
    | cons u more =>
      cases hmore
      simpa using hfinal (more ++ t :: us)

/-- The arguments of a call in the code of a string, which is the second token of a list, run out at
the brace that closes the code. -/
theorem error_final_code :
    let source := "[\"$\x7bf(\x7d\" 1]"
    let e : ParseError := ⟨.unexpectedEnd, .point 6⟩
    ∃ pre t post, withoutComments (Tokens.ofText source).tokens = pre ++ t :: post ∧
      ofTokens ⟨pre ++ t :: post, none⟩ = .error e ∧ t.span = ⟨1, 8⟩ ∧
      ∀ us, ofTokens ⟨pre ++ t :: us, none⟩ = .error e := by
  intro source e
  let pre : List Spanned := [⟨.mark .openBracket, ⟨0, 1⟩⟩]
  let code : List Spanned :=
    [⟨.ident "f", ⟨4, 5⟩⟩, ⟨.mark .openParen, ⟨5, 6⟩⟩, ⟨.eof, .point 6⟩]
  let t : Spanned := ⟨.string [.code code], ⟨1, 8⟩⟩
  let post : List Spanned :=
    [⟨.int 1, ⟨9, 10⟩⟩, ⟨.mark .closeBracket, ⟨10, 11⟩⟩, ⟨.eof, .point 11⟩]
  have htokens : Tokens.ofText source = ⟨pre ++ t :: post, none⟩ := by cbv
  have hlex : (Tokens.ofText source).error = none := congrArg Tokens.error htokens
  have hts : withoutComments (Tokens.ofText source).tokens = pre ++ t :: post := by
    rw [htokens]
    rfl
  have he : ofTokens ⟨pre ++ t :: post, none⟩ = .error e := by cbv
  have hplace : e.span.Inside t.span := ⟨by decide, by decide⟩
  exact ⟨pre, t, post, hts, he, rfl,
    error_final hlex hts he (by simp [e]) hplace (by decide)⟩

end Program

end ConfigExpr
