import ConfigExpr.Proofs.Steps
import ConfigExpr.Proofs.Tiles
import Mathlib.Data.List.Basic

/-!
# Comments are blank

A comment separates tokens as blank characters do, and nothing else. With a space in place of each
byte of its comments a source has its other tokens, all where they were, and the same lexical error
(`Cursor.tokens_blankOut`). So it parses to the same expression, or fails alike
(`Program.parse_blankComments`).
-/

namespace ConfigExpr

/-- The byte position lies in the span. -/
def Span.holds (s : Span) (p : Nat) : Bool :=
  s.start ≤ p && p < s.stop

/-- A text that begins at byte position `p`, with a space in place of each byte in the spans. -/
def blankOut (spans : List Span) : Nat → List Char → List Char
  | _, [] => []
  | p, c :: cs =>
    (if spans.any (·.holds p) then List.replicate c.utf8Size ' ' else [c]) ++
      blankOut spans (p + c.utf8Size) cs

theorem bytes_replicate_space (n : Nat) : bytes (List.replicate n ' ') = n := by
  induction n with
  | zero => rfl
  | succ n ih =>
    rw [List.replicate_succ, bytes_cons, ih]
    exact Nat.add_comm 1 n

section

variable {s : Span} {spans : List Span} {p : Nat}

theorem blankOut_append (spans : List Span) (p : Nat) (us vs : List Char) :
    blankOut spans p (us ++ vs) = blankOut spans p us ++ blankOut spans (p + bytes us) vs := by
  induction us generalizing p with
  | nil => rfl
  | cons c us ih =>
    rw [List.cons_append, blankOut, blankOut, ih, bytes_cons, Nat.add_assoc, List.append_assoc]

/-- A text before all the spans stays as it is. -/
theorem blankOut_of_le_start {cs : List Char} (h : ∀ s ∈ spans, p + bytes cs ≤ s.start) :
    blankOut spans p cs = cs := by
  induction cs generalizing p with
  | nil => rfl
  | cons c cs ih =>
    have hout : spans.any (·.holds p) = false := by
      rw [List.any_eq_false]
      intro s hs
      have hle := h s hs
      have hpos := c.utf8Size_pos
      simp only [bytes_cons] at hle
      simp only [Span.holds, Bool.and_eq_true, decide_eq_true_eq]
      omega
    rw [blankOut, hout, ih]
    · rfl
    · intro s hs
      rw [Nat.add_assoc]
      exact h s hs

/-- A text in a span turns to spaces. -/
theorem blankOut_of_holds {cs : List Char} (hs : s ∈ spans) (hstart : s.start ≤ p)
    (hstop : p + bytes cs ≤ s.stop) : blankOut spans p cs = List.replicate (bytes cs) ' ' := by
  induction cs generalizing p with
  | nil => rfl
  | cons c cs ih =>
    have hpos := c.utf8Size_pos
    rw [bytes_cons] at hstop
    have hin : spans.any (·.holds p) = true := by
      refine List.any_eq_true.2 ⟨s, hs, ?_⟩
      simp only [Span.holds, Bool.and_eq_true, decide_eq_true_eq]
      omega
    rw [blankOut, if_pos hin, ih (by omega) (by omega), bytes_cons, List.replicate_append_replicate]

/-- A span has no part in what stands after it. -/
theorem blankOut_cons_of_stop_le {cs : List Char} (h : s.stop ≤ p) :
    blankOut (s :: spans) p cs = blankOut spans p cs := by
  induction cs generalizing p with
  | nil => rfl
  | cons c cs ih =>
    have hout : s.holds p = false := by
      simp only [Span.holds, Bool.and_eq_false_iff, decide_eq_false_iff_not]
      omega
    rw [blankOut, blankOut, List.any_cons, hout, Bool.false_or, ih (by omega)]

/-- What stands first is a space or was there before. -/
theorem blankOut_cons (spans : List Span) (p : Nat) (c : Char) (cs : List Char) :
    (∃ us, blankOut spans p (c :: cs) = ' ' :: us) ∨
      blankOut spans p (c :: cs) = c :: blankOut spans (p + c.utf8Size) cs := by
  rw [blankOut]
  split
  · obtain ⟨n, hn⟩ := Nat.exists_eq_succ_of_ne_zero (Nat.ne_of_gt c.utf8Size_pos)
    rw [hn, List.replicate_succ]
    exact .inl ⟨_, rfl⟩
  · exact .inr rfl

end

theorem Token.goesOn_of_blankOut {t : Token} {spans : List Span} {p : Nat} {cs : List Char}
    (ht : t.isComment = false) (h : t.goesOn (blankOut spans p cs) = true) :
    t.goesOn cs = true := by
  rcases cs with _ | ⟨c, cs⟩
  · exact h
  rcases blankOut_cons spans p c cs with ⟨us, hus⟩ | hkept
  · rw [hus, goesOn_blank ht rfl] at h
    cases h
  rw [hkept] at h
  -- Only for an integer the character after the first one counts, which may be the digit after
  -- a point.
  cases t with
  | int v =>
    rcases cs with _ | ⟨d, cs⟩
    · exact h
    rcases blankOut_cons spans (p + c.utf8Size) d cs with ⟨us, hus⟩ | hkept'
    · rw [hus] at h
      have hdigit : c.isDigit = true := by simpa [goesOn] using h
      simp [goesOn, hdigit]
    · rw [hkept'] at h
      exact h
  | comment => cases ht
  | mark m => cases m <;> exact h
  | _ => exact h

namespace Cursor

/-! ## Blank characters -/

/-- Blank characters before a place are skipped. -/
theorem Passes.skipBlanks_eq {c after : Cursor} {us : List Char} (h : c.Passes us after)
    (hus : ∀ u ∈ us, Text.isBlank u = true) : c.skipBlanks = after.skipBlanks := by
  simp only [skipBlanks, h.rest, h.position, List.takeWhile_append_of_pos hus,
    List.dropWhile_append_of_pos hus, bytes_append, Nat.add_assoc]

theorem tokens_congr {c c' : Cursor} (h : c.skipBlanks = c'.skipBlanks) :
    c.tokens = c'.tokens := by
  rw [tokens, tokens]
  cases hn : c.next with
  | finish p =>
    obtain ⟨hr, rfl⟩ := finish_of_next hn
    rw [next_eq_finish (c := c') (h ▸ hr), h]
  | error e => rw [next_eq_error_iff.2 (h ▸ next_eq_error_iff.1 hn)]
  | token t after shorter =>
    obtain ⟨_, hn'⟩ := (yields_next_congr h).1 ⟨shorter, hn⟩
    simp only [hn']

/-! ## Comments -/

/-- The same place where the text after it has spaces in place of the bytes in the spans. -/
def blankOut (spans : List Span) (c : Cursor) : Cursor :=
  ⟨c.position, ConfigExpr.blankOut spans c.position c.rest⟩

theorem Passes.blankOut {spans : List Span} {c after : Cursor} {us : List Char}
    (h : c.Passes us after) (hspans : ∀ s ∈ spans, after.position ≤ s.start) :
    (c.blankOut spans).Passes us (after.blankOut spans) := by
  refine ⟨?_, h.position⟩
  have hkept : ConfigExpr.blankOut spans c.position us = us :=
    blankOut_of_le_start fun s hs => h.position ▸ hspans s hs
  simp only [Cursor.blankOut]
  rw [h.rest, blankOut_append, hkept, h.position]

/-- The first span turns to spaces, and has no part in what stands after it. -/
theorem Passes.blankOut_cons {spans : List Span} {c mid after : Cursor} {gap us : List Char}
    (hgap : c.Passes gap mid) (hus : mid.Passes us after)
    (hspans : ∀ s ∈ spans, after.position ≤ s.start) :
    (c.blankOut (⟨mid.position, after.position⟩ :: spans)).Passes
      (gap ++ List.replicate (bytes us) ' ') (after.blankOut spans) := by
  have hkept : ConfigExpr.blankOut (⟨mid.position, after.position⟩ :: spans) c.position gap =
      gap :=
    blankOut_of_le_start <| List.forall_mem_cons.2 ⟨Nat.le_of_eq hgap.position.symm, fun s hs =>
      hgap.position ▸ Nat.le_trans hus.le (hspans s hs)⟩
  have hspaces : ConfigExpr.blankOut (⟨mid.position, after.position⟩ :: spans) mid.position us =
      List.replicate (bytes us) ' ' :=
    blankOut_of_holds List.mem_cons_self (Nat.le_refl _) (Nat.le_of_eq hus.position.symm)
  refine ⟨?_, ?_⟩
  · simp only [Cursor.blankOut]
    rw [hgap.rest, hus.rest, blankOut_append, hkept, ← hgap.position, blankOut_append, hspaces,
      ← hus.position, blankOut_cons_of_stop_le (Nat.le_refl _), List.append_assoc]
  · rw [bytes_append, bytes_replicate_space, ← Nat.add_assoc]
    exact hus.position.trans (by rw [hgap.position]; rfl)

theorem blankOut_nil (c : Cursor) : c.blankOut [] = c := by
  rw [blankOut, blankOut_of_le_start (List.forall_mem_nil _)]

/-- A token before the spans is read from the text with spaces too. -/
theorem yields_next_blankOut {spans : List Span} {c after : Cursor} {t : Spanned}
    (h : c.next.Yields t after) (ht : t.token.isComment = false)
    (hspans : ∀ s ∈ spans, after.position ≤ s.start) :
    (c.blankOut spans).next.Yields t (after.blankOut spans) := by
  obtain ⟨us, hus, hmove⟩ := yields_next_move (g := fun n => n) (fun _ => rfl) h
  have hreads := hmove (ConfigExpr.blankOut spans after.position after.rest)
    (Token.goesOn_of_blankOut ht)
  rw [show t.mapSpans (Span.move fun n => n) = t from t.mapSpans_id] at hreads
  rw [eq_mk_of_rest (hus.blankOut hspans).rest]
  exact hreads

/-- With spaces in place of its comments a text has its other tokens, and the same error. -/
theorem tokens_blankOut (c : Cursor) :
    (c.blankOut (Program.commentSpans c.tokens.tokens)).tokens =
      ⟨Program.withoutComments c.tokens.tokens, c.tokens.error⟩ := by
  fun_induction tokens c with
  | case1 c p hn =>
    rw [show Program.commentSpans [⟨.eof, .point p⟩] = [] from rfl, blankOut_nil, tokens, hn]
    rfl
  | case2 c e hn =>
    rw [show Program.commentSpans [] = [] from rfl, blankOut_nil, tokens, hn]
    rfl
  | case3 c t after hafter hn others ih =>
    have hspans : ∀ s ∈ Program.commentSpans others.tokens, after.position ≤ s.start := by
      intro s hs
      obtain ⟨u, hu, rfl⟩ := List.mem_map.1 hs
      exact after.tiles_tokens.le_start u (List.mem_of_mem_filter hu)
    by_cases ht : t.token.isComment = true
    · obtain ⟨hspan, us, -, hus⟩ := (readsToken_of_yields ⟨hafter, hn⟩).extent
      have hcomments : Program.commentSpans (t :: others.tokens) =
          ⟨c.skipBlanks.position, after.position⟩ :: Program.commentSpans others.tokens := by
        simp [Program.commentSpans, ht, hspan]
      have hblank := c.passes_skipBlanks.blankOut_cons hus hspans
      have hskip := hblank.skipBlanks_eq fun u hu => by
        rcases List.mem_append.1 hu with hu | hu
        · exact List.mem_takeWhile_imp hu
        · rw [List.eq_of_mem_replicate hu]
          rfl
      rw [hcomments, tokens_congr hskip, ih]
      simp [Program.withoutComments, ht, others]
    · rw [Bool.not_eq_true] at ht
      have hcomments : Program.commentSpans (t :: others.tokens) =
          Program.commentSpans others.tokens := by
        simp [Program.commentSpans, ht]
      obtain ⟨_, hn'⟩ := yields_next_blankOut ⟨hafter, hn⟩ ht hspans
      rw [hcomments, tokens]
      simp only [hn', ih, others]
      simp [Program.withoutComments, ht]

end Cursor

namespace Program

/-- The source with a space in place of each byte of its comments. -/
def blankComments (source : String) : String :=
  String.ofList (blankOut (commentSpans (Tokens.ofText source).tokens) 0 source.toList)

theorem ofText_blankComments (source : String) :
    Tokens.ofText (blankComments source) =
      ⟨withoutComments (Tokens.ofText source).tokens, (Tokens.ofText source).error⟩ := by
  rw [Tokens.ofText, blankComments, String.toList_ofList]
  exact (Cursor.start source.toList).tokens_blankOut

theorem commentSpans_withoutComments (ts : List Spanned) :
    commentSpans (withoutComments ts) = [] := by
  simp [commentSpans, withoutComments]

/-- The tokens without comments make up the same program but for its comments, or fail alike. -/
theorem ofTokens_withoutComments (ts : Tokens) :
    ofTokens ⟨withoutComments ts.tokens, ts.error⟩ =
      (ofTokens ts).map fun p => ⟨p.expression, []⟩ := by
  have htwice := withoutComments_withoutComments ts.tokens
  cases hx : Expr.parseWhole (withoutComments ts.tokens) with
  | ok e rest lighter =>
    obtain ⟨_, hx'⟩ : (Expr.parseWhole (withoutComments (withoutComments ts.tokens))).Returns e
        rest := by
      rw [htwice]
      exact ⟨_, hx⟩
    simp only [ofTokens, hx, hx', commentSpans_withoutComments]
    rfl
  | error f =>
    have hx' : Expr.parseWhole (withoutComments (withoutComments ts.tokens)) = .error f := by
      rw [htwice]
      exact hx
    simp only [ofTokens, hx, hx']
    cases ts.error with
    | none => rfl
    | some e =>
      dsimp only
      split <;> rfl

theorem comments_of_ofTokens {ts : Tokens} {p : Program} (h : ofTokens ts = .ok p) :
    p.comments = commentSpans ts.tokens := by
  unfold ofTokens at h
  split at h
  · cases h
    rfl
  · cases h
  · split at h <;> cases h

/-- With a space in place of each byte of its comments a source parses to the same expression, all
of it where it was, or fails with the same error. The comments of a program are those of its
source. -/
theorem parse_blankComments (source : String) :
    parse (blankComments source) = (parse source).map (fun p => ⟨p.expression, []⟩) ∧
      ∀ p, parse source = .ok p → p.comments = commentSpans (Tokens.ofText source).tokens := by
  refine ⟨?_, fun p hp => comments_of_ofTokens hp⟩
  rw [parse, ofText_blankComments]
  exact ofTokens_withoutComments _

set_option maxRecDepth 8000 in
/-- One comment before the arrow of a lambda, the other with a character of two bytes. -/
theorem parse_blankComments_lambda :
    blankComments "(x) # a\n=> x # \u00e9" = "(x)    \n=> x     " ∧
      ∃ p, parse "(x) # a\n=> x # \u00e9" = .ok p ∧ p.comments = [⟨4, 7⟩, ⟨13, 17⟩] ∧
        parse "(x)    \n=> x     " = .ok ⟨p.expression, []⟩ := by
  have hblank : blankComments "(x) # a\n=> x # \u00e9" = "(x)    \n=> x     " := by cbv
  obtain ⟨p, hp⟩ : ∃ p, parse "(x) # a\n=> x # \u00e9" = .ok p := ⟨_, by cbv⟩
  obtain ⟨hparse, hcomments⟩ := parse_blankComments "(x) # a\n=> x # \u00e9"
  rw [hblank, hp] at hparse
  exact ⟨hblank, p, hp, (hcomments p hp).trans (by cbv), hparse⟩

end Program

end ConfigExpr
