import ConfigExpr.Expr.Render
import ConfigExpr.Program.Basic
import ConfigExpr.Proofs.Scans
import Mathlib.Tactic.SplitIfs

/-!
# Proper tokens

A token is proper if it can stand before the end of a token list: it is neither an end mark nor a
comment, a name is a word that is no keyword, and a string is cut into texts and codes so that no
text is empty or next to another, each code being proper tokens up to an end mark. What the lexer
reads is a proper token or a comment (`proper_of_yields_next`).
-/

namespace ConfigExpr

def StringPart.isText : StringPart → Bool
  | .text _ => true
  | .code _ => false

mutual

def Token.Proper : Token → Prop
  | .ident name => isBareKey name = true
  | .string parts => StringPart.ProperAll parts
  | .comment | .eof => False
  | _ => True
termination_by structural t => t

def StringPart.Proper : StringPart → Prop
  | .text s => s ≠ ""
  | .code tokens => Spanned.Ended tokens
termination_by structural p => p

def StringPart.ProperAll : List StringPart → Prop
  | [] => True
  | p :: ps => p.Proper ∧ (p.isText → ¬ (ps.head?.any StringPart.isText)) ∧ StringPart.ProperAll ps
termination_by structural ps => ps

def Spanned.Proper : Spanned → Prop
  | ⟨t, _⟩ => t.Proper
termination_by structural t => t

/-- Proper tokens up to an end mark. -/
def Spanned.Ended : List Spanned → Prop
  | [] => False
  | t :: ts => t.token = .eof ∧ ts = [] ∨ t.Proper ∧ Spanned.Ended ts
termination_by structural ts => ts

end

theorem Spanned.proper_iff {t : Spanned} : t.Proper ↔ t.token.Proper := by
  cases t
  rfl

theorem Spanned.ended_iff {ts : List Spanned} :
    Spanned.Ended ts ↔
      ∃ body z, ts = body ++ [z] ∧ z.token = .eof ∧ ∀ t ∈ body, t.token.Proper := by
  induction ts with
  | nil => simp [Spanned.Ended]
  | cons t ts ih =>
    rw [Spanned.Ended, ih]
    constructor
    · rintro (⟨ht, rfl⟩ | ⟨ht, body, z, rfl, hz, hbody⟩)
      · exact ⟨[], t, rfl, ht, by simp⟩
      · refine ⟨t :: body, z, rfl, hz, ?_⟩
        rintro u (_ | ⟨_, hu⟩)
        · exact Spanned.proper_iff.1 ht
        · exact hbody u hu
    · rintro ⟨body, z, h, hz, hbody⟩
      cases body with
      | nil =>
        cases h
        exact .inl ⟨hz, rfl⟩
      | cons u body =>
        cases h
        exact .inr ⟨Spanned.proper_iff.2 (hbody t (by simp)), body, z, rfl, hz,
          fun u hu => hbody u (by simp [hu])⟩

theorem Spanned.ended_of_properAll {parts : List StringPart} {tokens : List Spanned}
    (h : StringPart.ProperAll parts) (hcode : .code tokens ∈ parts) : Ended tokens := by
  induction parts with
  | nil => cases hcode
  | cons part parts ih =>
    rcases List.mem_cons.1 hcode with rfl | hcode
    · exact h.1
    · exact ih h.2.2 hcode

theorem Token.proper_ofWord {c : Char} {cs : List Char} (hc : isWordStart c = true)
    (hcs : cs.all isWordRest = true) : (Token.ofWord (c :: cs)).Proper := by
  unfold Token.ofWord
  split
  · trivial
  · next h =>
    unfold Token.Proper isBareKey
    rw [String.toList_ofList]
    simp only [hc, hcs, h, Option.isNone_none, Bool.and_self]

theorem Lexeme.proper_integer {sign digits : List Char} {t : Token}
    (h : integer sign digits = .ok t) : t.Proper := by
  unfold integer at h
  dsimp only at h
  split_ifs at h <;> cases h <;> trivial

theorem Lexeme.proper_float {text : List Char} {t : Token} (h : float text = .ok t) :
    t.Proper := by
  unfold float at h
  split at h <;> cases h
  trivial

theorem Lexeme.proper_number {sign : List Char} {d : Char} {cs : List Char} {t : Token}
    (h : (number sign d cs).reading = .ok t) : t.Proper := by
  by_cases hf : ∃ f more, cs.dropWhile Char.isDigit = '.' :: f :: more ∧ f.isDigit = true
  · obtain ⟨f, more, hm, hf⟩ := hf
    rw [(number_float sign d hm hf).1] at h
    exact proper_float h
  · have hi : ∀ f more, cs.dropWhile Char.isDigit = '.' :: f :: more → f.isDigit = false :=
      fun f more hm => Bool.eq_false_iff.2 fun h' => hf ⟨f, more, hm, h'⟩
    rw [(number_integer sign d hi).1] at h
    exact proper_integer h

theorem proper_of_lexeme {c : Char} {cs : List Char} {t : Token}
    (h : (lexeme c cs).reading = .ok t) : t.Proper ∨ t = .comment := by
  unfold lexeme at h
  split_ifs at h with h₁ h₂ h₃
  · cases h
    exact .inr rfl
  · cases h
    exact .inl (Token.proper_ofWord h₂ List.all_takeWhile)
  · exact .inl (Lexeme.proper_number h)
  · left
    split at h
    · split_ifs at h
      · exact Lexeme.proper_number h
      · cases h
    · cases h
      trivial
    · split at h <;> cases h
      trivial

theorem StringPart.properAll_ofText (text : List Char) : ProperAll (ofText text) := by
  unfold ofText
  split
  · trivial
  · next h =>
    refine ⟨?_, by simp, trivial⟩
    simpa [Proper] using h

theorem StringPart.properAll_ofText_code {text : List Char} {tokens : List Spanned}
    {others : List StringPart} (ht : Spanned.Ended tokens) (ho : ProperAll others) :
    ProperAll (ofText text ++ .code tokens :: others) := by
  have hcode : ProperAll (.code tokens :: others) := ⟨ht, nofun, ho⟩
  unfold ofText
  split
  · exact hcode
  · next h =>
    refine ⟨?_, by simp [isText], hcode⟩
    simpa [Proper] using h

/-- Strings read from fewer than `n` characters have proper parts, and codes an end mark. -/
structure ProperBelow (n : Nat) : Prop where
  string : ∀ {quotes : Quotes} {opening : Nat} {c after : Cursor} {parts : List StringPart},
    c.rest.length < n → (c.string quotes opening).Yields parts after → StringPart.ProperAll parts
  code : ∀ {dollar depth : Nat} {c after : Cursor} {tokens : List Spanned},
    c.rest.length < n → (c.code dollar depth).Yields tokens after → Spanned.Ended tokens

namespace ProperBelow

variable {n : Nat} (h : ProperBelow n) {c after : Cursor}

include h

theorem next {t : Spanned} (hc : c.rest.length ≤ n) (ht : c.next.Yields t after) :
    t.token.Proper ∨ t.token = .comment := by
  have hs := c.rest_length_skipBlanks_le
  rcases hr : c.skipBlanks.rest with _ | ⟨ch, cs⟩
  · exact absurd ht (Cursor.not_yields_next_nil hr)
  rw [hr, List.length_cons] at hs
  by_cases hch : ch = '"'
  · subst hch
    left
    by_cases hcs : ∃ ds, cs = '"' :: '"' :: ds
    · obtain ⟨ds, rfl⟩ := hcs
      obtain ⟨parts, hp, rfl⟩ := (Cursor.yields_next_block hr).1 ht
      simp only [List.length_cons] at hs
      exact h.string (c := ⟨_, ds⟩) (by dsimp only; omega) hp
    · obtain ⟨parts, hp, rfl⟩ :=
        (Cursor.yields_next_line hr fun ds hd => hcs ⟨ds, hd⟩).1 ht
      exact h.string (c := ⟨_, cs⟩) (by dsimp only; omega) hp
  · obtain ⟨token, hl, rfl, -⟩ := (Cursor.yields_next_lexeme hr hch).1 ht
    exact proper_of_lexeme hl

theorem string_of_le {quotes : Quotes} {opening : Nat} {parts : List StringPart}
    (hc : c.rest.length ≤ n) (hp : (c.string quotes opening).Yields parts after) :
    StringPart.ProperAll parts := by
  obtain ⟨text, stop, hs, hp⟩ := Cursor.yields_string.1 hp
  have hlt := rest_length_lt_of_stretch hs
  cases stop with
  | closed next =>
    obtain ⟨rfl, rfl⟩ := hp
    exact StringPart.properAll_ofText text
  | code dollar inside =>
    obtain ⟨tokens, mid, ht, others, ho, rfl⟩ := hp
    have hmid := ht.shorter
    simp only [StretchEnd.next] at hlt
    exact StringPart.properAll_ofText_code (h.code (by omega) ht) (h.string (by omega) ho)

theorem code_of_le {dollar depth : Nat} {tokens : List Spanned}
    (hc : c.rest.length ≤ n) (hp : (c.code dollar depth).Yields tokens after) :
    Spanned.Ended tokens := by
  obtain ⟨t, mid, ht, hp⟩ := Cursor.yields_code.1 hp
  split at hp
  · obtain ⟨rfl, -⟩ := hp
    exact .inl ⟨rfl, rfl⟩
  · obtain ⟨others, ho, rfl⟩ := hp
    have hmid := ht.shorter
    have hothers := h.code (by omega) ho
    split
    · exact hothers
    · next hne =>
      rcases h.next hc ht with hproper | hcomment
      · exact .inr ⟨Spanned.proper_iff.2 hproper, hothers⟩
      · simp [Token.isComment, hcomment] at hne

end ProperBelow

theorem properBelow : ∀ n, ProperBelow n
  | 0 => ⟨fun hc => absurd hc (Nat.not_lt_zero _), fun hc => absurd hc (Nat.not_lt_zero _)⟩
  | n + 1 =>
    ⟨fun hc hp => (properBelow n).string_of_le (Nat.le_of_lt_succ hc) hp,
      fun hc hp => (properBelow n).code_of_le (Nat.le_of_lt_succ hc) hp⟩

theorem proper_of_yields_next {c after : Cursor} {t : Spanned} (h : c.next.Yields t after) :
    t.token.Proper ∨ t.token = .comment :=
  (properBelow c.rest.length).next (Nat.le_refl _) h

/-- The tokens of a text without a lexical error are proper tokens and comments up to an end
mark. -/
theorem Cursor.tokens_eq_of_error_eq_none {c : Cursor} (h : c.tokens.error = none) :
    ∃ body p, c.tokens.tokens = body ++ [⟨.eof, .point p⟩] ∧
      ∀ t ∈ body, t.token.Proper ∨ t.token = .comment := by
  fun_induction Cursor.tokens c with
  | case1 c p hn => exact ⟨[], p, rfl, by simp⟩
  | case2 c e hn => cases h
  | case3 c t after hafter hn others ih =>
    obtain ⟨body, p, hb, hproper⟩ := ih h
    refine ⟨t :: body, p, by simp only [hb, List.cons_append, others], ?_⟩
    rintro u (_ | ⟨_, hu⟩)
    · exact proper_of_yields_next ⟨_, hn⟩
    · exact hproper u hu

/-- What the parser sees of them are proper tokens up to an end mark. -/
theorem Cursor.ended_withoutComments {c : Cursor} (h : c.tokens.error = none) :
    Spanned.Ended (Program.withoutComments c.tokens.tokens) := by
  obtain ⟨body, p, hb, hproper⟩ := c.tokens_eq_of_error_eq_none h
  refine Spanned.ended_iff.2 ⟨body.filter (!·.token.isComment), ⟨.eof, .point p⟩, ?_, rfl, ?_⟩
  · rw [hb, Program.withoutComments, List.filter_append]
    rfl
  · intro t ht
    obtain ⟨hmem, hnot⟩ := List.mem_filter.1 ht
    rcases hproper t hmem with hp | hc
    · exact hp
    · simp [Token.isComment, hc] at hnot

/-- There is an end mark only where there is no lexical error. -/
theorem Cursor.proper_of_mem_tokens {c : Cursor} {t : Spanned} (ht : t ∈ c.tokens.tokens) :
    t.token.Proper ∨ t.token = .comment ∨ t.token = .eof ∧ c.tokens.error = none := by
  fun_induction Cursor.tokens c with
  | case1 c p hn =>
    rw [List.mem_singleton.1 ht]
    exact .inr (.inr ⟨rfl, rfl⟩)
  | case2 c e hn => cases ht
  | case3 c u after hafter hn others ih =>
    rcases List.mem_cons.1 ht with rfl | ht
    · rcases proper_of_yields_next ⟨_, hn⟩ with h | h
      · exact .inl h
      · exact .inr (.inl h)
    · exact ih ht

end ConfigExpr
