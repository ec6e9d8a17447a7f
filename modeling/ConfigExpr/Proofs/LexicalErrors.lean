import ConfigExpr.Proofs.Advances
import ConfigExpr.Proofs.ErrorPlaces
import Mathlib.Data.List.Basic

/-!
# Lexical errors

The first lexical error of a source ends its tokens, and where the parser comes to it no other error
is reported. An error reported instead is at a token that was read before; if it is the end of the
input, at the end mark of code in a string (`Program.parse_cases`). So a lexical error is never
taken for anything else (`Program.lexical_errors_surface`).
-/

namespace ConfigExpr

/-- The second token is the first, or in it at any depth. -/
inductive Spanned.Contains (t : Spanned) : Spanned → Prop where
  | self : Contains t t
  | inner {s u : Spanned} : t.Contains s → u ∈ s.inner → Contains t u

namespace Spanned

variable {source : List Char} {t u : Spanned}

/-- What holds at any depth of a token holds of those it contains. -/
theorem Everywhere.of_contains {p : Spanned → Prop} (h : t.Everywhere p) (hu : t.Contains u) :
    u.Everywhere p := by
  induction hu with
  | self => exact h
  | inner _ hu ih => exact ih.inner hu

theorem Everywhere.and_contains {p : Spanned → Prop} (h : u.Everywhere p) (hu : t.Contains u) :
    u.Everywhere fun v => p v ∧ t.Contains v := by
  induction h with
  | intro hp _ ih => exact .intro ⟨hp, hu⟩ fun v hv => ih v hv (.inner hu hv)

theorem Contains.start_le (h : t.Contains u) (ht : t.Everywhere (ReadIn source)) :
    t.span.start ≤ u.span.start := by
  induction h with
  | self => exact Nat.le_refl _
  | @inner s u hs hu ih =>
    have hchain := (ht.of_contains hs).self.chain
    exact Nat.le_trans ih (hchain.le_start _ (List.mem_map_of_mem hu))

theorem Contains.stop_le (h : t.Contains u) (ht : t.Everywhere (ReadIn source)) :
    u.span.stop ≤ t.span.stop := by
  induction h with
  | self => exact Nat.le_refl _
  | @inner s u hs hu ih =>
    have hchain := (ht.of_contains hs).self.chain
    exact Nat.le_trans (hchain.stop_le _ (List.mem_map_of_mem hu)) ih

/-- The code in a string that is read ends in an end mark. -/
theorem ReadIn.exists_eof {parts : List StringPart} {tokens : List Spanned} (h : t.ReadIn source)
    (ht : t.token = .string parts) (hcode : .code tokens ∈ parts) :
    ∃ u ∈ tokens, u.token = .eof := by
  obtain ⟨c, -, ⟨after, hreads⟩ | rfl⟩ := h
  · have hproper := proper_of_yields_next (hreads.yields c hreads.skipBlanks_eq)
    rw [ht] at hproper
    rcases hproper with hproper | hcomment
    · obtain ⟨body, z, rfl, hz, -⟩ := ended_iff.1 (ended_of_properAll hproper hcode)
      exact ⟨z, List.mem_append_right _ (List.mem_singleton_self z), hz⟩
    · cases hcomment
  · cases ht

end Spanned

namespace Cursor

theorem position_le_of_error {c : Cursor} {e : LexError} (h : c.tokens.error = some e) :
    c.position ≤ e.span.start := by
  fun_induction tokens c with
  | case1 c p hn => cases h
  | case2 c e' hn =>
    cases h
    obtain ⟨mid, after, ⟨us, hus⟩, -, hspan⟩ := (failsToken_of_next hn).covers
    rw [hspan]
    exact Nat.le_trans c.passes_skipBlanks.le hus.le
  | case3 c t after hafter hn others ih =>
    obtain ⟨_, hpasses⟩ := reaches_of_yields_next ⟨hafter, hn⟩
    exact Nat.le_trans hpasses.le (ih h)

/-- The tokens before a lexical error end before it. -/
theorem stop_le_of_error {c : Cursor} {e : LexError} (h : c.tokens.error = some e) :
    ∀ t ∈ c.tokens.tokens, t.span.stop ≤ e.span.start := by
  fun_induction tokens c with
  | case1 c p hn => cases h
  | case2 c e' hn => exact List.forall_mem_nil _
  | case3 c t after hafter hn others ih =>
    refine List.forall_mem_cons.2 ⟨?_, ih h⟩
    rw [← position_of_yields_next ⟨hafter, hn⟩]
    exact position_le_of_error h

end Cursor

namespace Program

/-- The token is one of those a source is read as, or in one of them. -/
def Occurs (source : String) (u : Spanned) : Prop :=
  u.ReadIn source.toList ∧ ∃ t ∈ (Tokens.ofText source).tokens, t.Contains u

/-- The tokens of a source, and the errors at one of them. -/
def reports (source : String) : Reports where
  holds := Occurs source
  allows e := ∃ u, Occurs source u ∧ u.span = e.span ∧ (e.fault = .unexpectedEnd → u.token = .eof)
  token hu heof _ := ⟨_, hu, rfl, heof⟩
  code hu hstring hcode := .inl (hu.1.exists_eof hstring hcode)

theorem everywhere_readIn {source : String} :
    ∀ t ∈ (Tokens.ofText source).tokens, t.Everywhere (Spanned.ReadIn source.toList) :=
  Cursor.everywhere_tokens (.refl _)

theorem holds_withoutComments (source : String) :
    (reports source).Holds (withoutComments (Tokens.ofText source).tokens) := by
  intro t ht
  have hmem := List.mem_of_mem_filter ht
  exact ((everywhere_readIn t hmem).and_contains .self).imp fun _ hu => ⟨hu.1, t, hmem, hu.2⟩

theorem exists_eof_withoutComments {source : String} (h : (Tokens.ofText source).error = none) :
    ∃ t ∈ withoutComments (Tokens.ofText source).tokens, t.token = .eof := by
  obtain ⟨body, z, hbody, hz, -⟩ := Spanned.ended_iff.1 (Cursor.ended_withoutComments h)
  exact ⟨z, by rw [Tokens.ofText, hbody]; simp, hz⟩

/-- A source without a lexical error parses, or an error is reported at one of its tokens. One with
a lexical error does not parse, and that error is reported, or one at a token before it. -/
theorem parse_cases (source : String) :
    ((∃ p, parse source = .ok p) ∧ (Tokens.ofText source).error = none) ∨
      (∃ l, (Tokens.ofText source).error = some l ∧
        parse source = .error ⟨.lexical l, l.span⟩) ∨
      ∃ e, parse source = .error e ∧ (∀ l, e.fault ≠ .lexical l) ∧ (reports source).allows e := by
  unfold parse ofTokens
  have hwhole := Expr.parseWhole_cases (holds_withoutComments source)
  rcases hwhole with ⟨e, rest, ⟨t, ht, heof⟩, _, hparse⟩ | ⟨f, hf, hparse⟩
  · refine .inl ⟨⟨_, by rw [hparse]⟩, ?_⟩
    have hmem : t ∈ (Cursor.start source.toList).tokens.tokens := List.mem_of_mem_filter ht
    rcases Cursor.proper_of_mem_tokens hmem with hproper | hcomment | ⟨-, hnone⟩
    · rw [heof] at hproper
      exact hproper.elim
    · rw [heof] at hcomment
      cases hcomment
    · exact hnone
  · rw [hparse]
    cases herror : (Tokens.ofText source).error with
    | none =>
      obtain ⟨t, ht, heof⟩ := exists_eof_withoutComments herror
      exact .inr (.inr ⟨f.error, rfl, hf.error.not_lexical, hf.allowed ht heof⟩)
    | some l =>
      dsimp only
      split
      · exact .inr (.inl ⟨l, rfl, rfl⟩)
      next hlast =>
        refine .inr (.inr ⟨f.error, rfl, hf.error.not_lexical, hf.error.allowed ?_⟩)
        intro hnil
        simp [Failure.atLast, hnil] at hlast

/-- A lexical error that is reported is the first one of the source; a source that parses has none,
and is read up to its end. If a source has one and another error is reported, that one is at a token
before it, and the end of the input is only found at the end mark of code in a string. -/
theorem lexical_errors_surface (source : String) :
    (∀ l span, parse source = .error ⟨.lexical l, span⟩ →
      (Tokens.ofText source).error = some l ∧ span = l.span) ∧
    (∀ p, parse source = .ok p → (Tokens.ofText source).error = none ∧
      ∃ body, (Tokens.ofText source).tokens = body ++ [⟨.eof, .point (bytes source.toList)⟩]) ∧
    ∀ l, (Tokens.ofText source).error = some l →
      ∀ e, parse source = .error e → (∀ l', e.fault ≠ .lexical l') →
        e.span.stop ≤ l.span.start ∧
        (e.fault = .unexpectedEnd → ∃ t ∈ (Tokens.ofText source).tokens, ∃ u,
          t.Contains u ∧ u.token = .eof ∧ u.span = e.span) := by
  rcases parse_cases source with
    ⟨⟨p, hp⟩, hnone⟩ | ⟨l, hl, hp⟩ | ⟨e, hp, hlexical, u, hu, hspan, heof⟩
  · refine ⟨fun l span h => ?_, fun q _ => ⟨hnone, ?_⟩, fun l hl => ?_⟩
    · cases h.symm.trans hp
    · obtain ⟨body, hbody⟩ := Cursor.exists_of_error_eq_none hnone
      rw [Cursor.start, Nat.zero_add] at hbody
      exact ⟨body, hbody⟩
    · cases hl.symm.trans hnone
  · refine ⟨fun l' span h => ?_, fun q h => ?_, fun l' _ e h hlexical => ?_⟩
    · cases h.symm.trans hp
      exact ⟨hl, rfl⟩
    · cases h.symm.trans hp
    · cases h.symm.trans hp
      exact absurd rfl (hlexical l)
  · refine ⟨fun l span h => ?_, fun q h => ?_, fun l hl e' h _ => ?_⟩
    · cases h.symm.trans hp
      exact absurd rfl (hlexical l)
    · cases h.symm.trans hp
    · cases h.symm.trans hp
      obtain ⟨-, t, ht, hcontains⟩ := hu
      refine ⟨?_, fun hend => ⟨t, ht, u, hcontains, heof hend, hspan⟩⟩
      rw [← hspan]
      exact Nat.le_trans (hcontains.stop_le (everywhere_readIn t ht))
        (Cursor.stop_le_of_error hl t ht)

set_option maxRecDepth 8000 in
/-- A lexical error that the parser comes to, one after an unexpected token, and one after code in a
string that ends too early. -/
theorem lexical_errors_surface_list :
    (parse "[1 $" = .error ⟨.lexical ⟨.unrecognized '$', ⟨3, 4⟩⟩, ⟨3, 4⟩⟩ ∧
      (Tokens.ofText "[1 $").error = some ⟨.unrecognized '$', ⟨3, 4⟩⟩) ∧
    (∃ e, parse "[1 2 3 $" = .error e ∧ e.span = ⟨3, 4⟩ ∧ e.span.stop ≤ 7) ∧
      ∃ e, parse "\"$\x7b(\x7d\" 2 $" = .error e ∧ e = ⟨.unexpectedEnd, .point 4⟩ ∧
        e.span.stop ≤ 9 ∧ ∃ t ∈ (Tokens.ofText "\"$\x7b(\x7d\" 2 $").tokens, ∃ u,
          t.Contains u ∧ u.token = .eof ∧ u.span = e.span := by
  have hfirst : parse "[1 $" = .error ⟨.lexical ⟨.unrecognized '$', ⟨3, 4⟩⟩, ⟨3, 4⟩⟩ := by cbv
  have hlist : parse "[1 2 3 $" =
      .error ⟨.unexpected (.int 2) [.mark .comma, .mark .closeBracket], ⟨3, 4⟩⟩ := by cbv
  have hcode : parse "\"$\x7b(\x7d\" 2 $" = .error ⟨.unexpectedEnd, .point 4⟩ := by cbv
  have hlater : (Tokens.ofText "[1 2 3 $").error = some ⟨.unrecognized '$', ⟨7, 8⟩⟩ := by cbv
  have hlast : (Tokens.ofText "\"$\x7b(\x7d\" 2 $").error = some ⟨.unrecognized '$', ⟨9, 10⟩⟩ := by
    cbv
  have hbefore := (lexical_errors_surface _).2.2 _ hlater _ hlist (by simp)
  have hend := (lexical_errors_surface _).2.2 _ hlast _ hcode (by simp)
  exact ⟨⟨hfirst, ((lexical_errors_surface _).1 _ _ hfirst).1⟩, ⟨_, hlist, rfl, hbefore.1⟩,
    _, hcode, rfl, hend.1, hend.2 rfl⟩

end Program

end ConfigExpr
