import ConfigExpr.Proofs.Extents
import ConfigExpr.Proofs.Spans

/-!
# Readings elsewhere

What is read from a text depends on that text only, and on whether the text after it belongs to the
last token. So a reading can be moved to another position and put before another text
(`ReadsToken.exists_move`): all of its spans move along. At another position the whole text has the
same tokens and the same error, moved there (`Cursor.tokens_move`).
-/

namespace ConfigExpr

/-- The span whose ends are moved by a function. -/
def Span.move (g : Nat → Nat) (s : Span) : Span :=
  ⟨g s.start, g s.stop⟩

def LexError.move (g : Nat → Nat) (e : LexError) : LexError :=
  ⟨e.fault, e.span.move g⟩

def Tokens.move (g : Nat → Nat) (ts : Tokens) : Tokens :=
  ⟨Spanned.mapSpansAll (Span.move g) ts.tokens, ts.error.map (·.move g)⟩

/-- The same text at the position that a function moves it to. -/
def Cursor.move (g : Nat → Nat) (c : Cursor) : Cursor :=
  ⟨g c.position, c.rest⟩

/-- From the position on the function keeps distances. -/
def Slides (g : Nat → Nat) (p : Nat) : Prop :=
  ∀ n, g (p + n) = g p + n

theorem slides_add (k p : Nat) : Slides (· + k) p :=
  fun n => Nat.add_right_comm p n k

theorem slides_sub_self (p : Nat) : Slides (· - p) p :=
  fun n => by simp

theorem Slides.add {g : Nat → Nat} {p : Nat} (h : Slides g p) (k : Nat) : Slides g (p + k) := by
  intro n
  rw [Nat.add_assoc, h, h, Nat.add_assoc]

theorem Slides.passes {g : Nat → Nat} {c after : Cursor} {text : List Char}
    (h : Slides g c.position) (hpasses : c.Passes text after) : Slides g after.position :=
  hpasses.position ▸ h.add _

section

variable (f : Span → Span)

@[simp] theorem Spanned.mapSpans_token (t : Spanned) :
    (t.mapSpans f).token = t.token.mapSpans f := by
  cases t
  rfl

@[simp] theorem Spanned.mapSpans_span (t : Spanned) : (t.mapSpans f).span = f t.span := by
  cases t
  rfl

@[simp] theorem Token.depthAfter?_mapSpans (t : Token) (depth : Nat) :
    (t.mapSpans f).depthAfter? depth = t.depthAfter? depth := by
  cases t <;> rfl

@[simp] theorem Token.isComment_mapSpans (t : Token) :
    (t.mapSpans f).isComment = t.isComment := by
  cases t <;> rfl

theorem Token.mapSpans_of_lexeme {ch : Char} {cs : List Char} {t : Token}
    (h : (lexeme ch cs).reading = .ok t) : t.mapSpans f = t := by
  cases t with
  | string parts => exact absurd (spelt_lexeme h).1 Token.Spelt.ne_string
  | _ => rfl

theorem StringPart.map_mapSpans_ofText (text : List Char) :
    (ofText text).map (·.mapSpans f) = ofText text := by
  unfold ofText
  split <;> rfl

end

/-- Whether a text goes on with a token shows before a brace in it. -/
theorem Token.goesOn_append_brace (t : Token) (us rest rest' : List Char) :
    t.goesOn (us ++ '\x7d' :: rest) = t.goesOn (us ++ '\x7d' :: rest') := by
  rcases us with _ | ⟨c, _ | ⟨d, us⟩⟩ <;> cases t with
  | mark m => cases m <;> rfl
  | _ => rfl

namespace StretchEnd

/-- The same end at the place it is moved to, before another text. -/
def move (g : Nat → Nat) (rest : List Char) : StretchEnd → StretchEnd
  | .closed next => .closed ⟨g next.position, rest⟩
  | .code dollar next => .code (g dollar) ⟨g next.position, rest⟩

theorem move_place {g : Nat → Nat} {p n : Nat} (hg : Slides g p) (quotes : Quotes)
    (rest rest' : List Char) (stop : StretchEnd) :
    (stop.place quotes (p + n) rest).move g rest' = stop.place quotes (g p + n) rest' := by
  cases stop <;> simp only [place, move, Nat.add_assoc, hg _]

end StretchEnd

/-- A stretch can be moved, and put before another text. -/
theorem exists_move_stretch {g : Nat → Nat} {quotes : Quotes} {opening : Nat} {c : Cursor}
    {text : List Char} {stop : StretchEnd} (h : stretch quotes opening c = .ok (text, stop))
    (hg : Slides g c.position) :
    ∃ us, us ≠ [] ∧ c.Passes us stop.next ∧ ∀ opening' rest,
      stretch quotes opening' ⟨g c.position, us ++ rest⟩ = .ok (text, stop.move g rest) := by
  obtain ⟨us, hrest, hplace, hus⟩ := exists_of_stretch h
  obtain ⟨vs, hne, hvs⟩ := passes_of_stretch h
  obtain rfl : vs = us ++ stop.ending quotes := by
    have hcut := hvs.rest.symm.trans hrest
    rw [← List.append_assoc] at hcut
    exact List.append_cancel_right hcut
  refine ⟨_, hne, hvs, fun opening' rest => ?_⟩
  rw [List.append_assoc, hus]
  rw [← StretchEnd.move_place hg quotes stop.next.rest, ← hplace]

namespace Cursor

/-- Blank characters before a token are skipped wherever they stand. -/
theorem skipBlanks_move {g : Nat → Nat} {c after : Cursor} {us : List Char}
    (hg : Slides g c.position) (hne : us ≠ []) (hus : c.skipBlanks.Passes us after)
    (rest : List Char) :
    (⟨g c.position, c.rest.takeWhile Text.isBlank ++ (us ++ rest)⟩ : Cursor).skipBlanks =
      ⟨g c.skipBlanks.position, us ++ rest⟩ := by
  have hhead : ∀ ch ∈ (us ++ rest).head?, Text.isBlank ch = false := by
    rcases us with _ | ⟨ch, us⟩
    · exact absurd rfl hne
    · rintro _ ⟨⟩
      exact isBlank_head_skipBlanks hus.rest
  obtain ⟨htake, hdrop⟩ := takeWhile_dropWhile_append (fun _ => List.mem_takeWhile_imp) hhead
  rw [skipBlanks, htake, hdrop, ← hg]
  rfl

/-- The lexeme at a place can be put before any text that does not go on with it. -/
theorem exists_move_lexeme {g : Nat → Nat} {p : Nat} {ch : Char} {cs : List Char} {token : Token}
    (hl : (lexeme ch cs).reading = .ok token) (hg : Slides g p) :
    ∃ us, us ≠ [] ∧ (⟨p, ch :: cs⟩ : Cursor).Passes us
        ⟨p + bytes (lexeme ch cs).text, (lexeme ch cs).rest⟩ ∧
      ∀ rest, token.goesOn rest = false →
        ReadsToken ⟨g p, us ++ rest⟩ ⟨token, ⟨g p, g (p + bytes (lexeme ch cs).text)⟩⟩
          ⟨g (p + bytes (lexeme ch cs).text), rest⟩ := by
  refine ⟨_, (lexeme ch cs).text_ne_nil, passes_lexeme p ch cs, fun rest hrest => ?_⟩
  rw [hg]
  exact readsToken_of_spelt (spelt_lexeme hl).1 hrest (g p)

/-- Where the closing quotes follow the opening ones the string has no parts. -/
theorem ReadsString.eq_nil {opening p : Nat} {cs : List Char} {parts : List StringPart}
    {after : Cursor} (h : ReadsString .line opening ⟨p, '"' :: cs⟩ parts after) : parts = [] := by
  have hstretch : stretch .line opening ⟨p, '"' :: cs⟩ = .ok ([], .closed ⟨p + 1, cs⟩) := by
    rw [stretch, lineStretch]
  cases h with
  | closed h =>
    cases h.symm.trans hstretch
    rfl
  | code h => cases h.symm.trans hstretch

variable {g : Nat → Nat}

mutual

/-- A token can be moved, and put before a text that goes on with it only if its own did. -/
theorem ReadsToken.exists_move : ∀ {c : Cursor} {t : Spanned} {after : Cursor},
    ReadsToken c t after → Slides g c.position →
    ∃ us, us ≠ [] ∧ c.Passes us after ∧ ∀ rest,
      (t.token.goesOn rest = true → t.token.goesOn after.rest = true) →
      ReadsToken ⟨g c.position, us ++ rest⟩ (t.mapSpans (Span.move g)) ⟨g after.position, rest⟩
  | _, _, _, .lexeme _ _ hl, hg => by
    obtain ⟨us, hne, hus, hmove⟩ := exists_move_lexeme hl hg
    refine ⟨us, hne, hus, fun rest hrest => ?_⟩
    rw [Spanned.mapSpans, Token.mapSpans_of_lexeme _ hl]
    refine hmove rest ?_
    rw [← Bool.not_eq_true]
    intro hgoes
    have hnot := (spelt_lexeme hl).2
    rw [hrest hgoes] at hnot
    cases hnot
  | _, _, _, @ReadsToken.block p cs parts after h, hg => by
    have hquotes := passes_quotes .block p cs
    obtain ⟨us, -, hus, hmove⟩ := h.exists_move (hg.passes hquotes)
    refine ⟨_, List.cons_ne_nil _ _, hquotes.append hus, fun rest _ => ?_⟩
    have hstring := hmove (g p) rest
    rw [show g (p + 3) = g p + 3 from hg 3] at hstring
    exact .block hstring
  | _, _, _, @ReadsToken.line p cs parts after hcs h, hg => by
    have hquotes := passes_quotes .line p cs
    obtain ⟨us, hne, hus, hmove⟩ := h.exists_move (hg.passes hquotes)
    refine ⟨_, List.cons_ne_nil _ _, hquotes.append hus, fun rest hrest => ?_⟩
    have hstring := hmove (g p) rest
    rw [show g (p + 1) = g p + 1 from hg 1] at hstring
    refine .line ?_ hstring
    have hsplit : cs = us ++ after.rest := hus.rest
    rintro ds hds
    rcases us with _ | ⟨d, _ | ⟨e, us⟩⟩
    · exact hne rfl
    · obtain ⟨rfl, rfl⟩ := List.cons.inj hds
      subst hsplit
      obtain rfl := h.eq_nil
      have hgoes := hrest rfl
      rcases hafter : after.rest with _ | ⟨d, cs⟩
      · rw [hafter] at hgoes
        cases hgoes
      · rw [hafter] at hgoes hcs
        obtain rfl : d = '"' := eq_of_beq hgoes
        exact hcs cs rfl
    · obtain ⟨rfl, htail⟩ := List.cons.inj hds
      obtain ⟨rfl, -⟩ := List.cons.inj htail
      exact hcs _ hsplit

theorem ReadsString.exists_move : ∀ {quotes : Quotes} {opening : Nat}
    {c : Cursor} {parts : List StringPart} {after : Cursor},
    ReadsString quotes opening c parts after → Slides g c.position →
    ∃ us, us ≠ [] ∧ c.Passes us after ∧ ∀ opening' rest,
      ReadsString quotes opening' ⟨g c.position, us ++ rest⟩
        (StringPart.mapSpansAll (Span.move g) parts) ⟨g after.position, rest⟩
  | _, _, _, _, _, .closed h, hg => by
    obtain ⟨us, hne, hus, hmove⟩ := exists_move_stretch h hg
    refine ⟨us, hne, hus, fun opening' rest => ?_⟩
    rw [StringPart.mapSpansAll_eq_map, StringPart.map_mapSpans_ofText]
    exact .closed (hmove opening' rest)
  | _, _, _, _, _, .code h hcode ho, hg => by
    obtain ⟨us, hne, hus, hmove⟩ := exists_move_stretch h hg
    obtain ⟨vs, hvs, hcodes⟩ := hcode.exists_move (hg.passes hus)
    obtain ⟨ws, -, hws, hothers⟩ := ho.exists_move (hg.passes (hus.append hvs))
    refine ⟨_, by simp [hne], (hus.append hvs).append hws, fun opening' rest => ?_⟩
    rw [StringPart.mapSpansAll_eq_map, List.map_append, StringPart.map_mapSpans_ofText,
      List.map_cons, ← StringPart.mapSpansAll_eq_map]
    have hsplit : us ++ (vs ++ ['\x7d']) ++ ws ++ rest = us ++ (vs ++ '\x7d' :: (ws ++ rest)) := by
      simp
    rw [hsplit]
    exact .code (hmove opening' _) (hcodes _ (ws ++ rest)) (hothers opening' rest)

theorem ReadsCode.exists_move : ∀ {dollar depth : Nat} {c : Cursor}
    {tokens : List Spanned} {after : Cursor},
    ReadsCode dollar depth c tokens after → Slides g c.position →
    ∃ us, c.Passes (us ++ ['\x7d']) after ∧ ∀ dollar' rest,
      ReadsCode dollar' depth ⟨g c.position, us ++ '\x7d' :: rest⟩
        (Spanned.mapSpansAll (Span.move g) tokens) ⟨g after.position, rest⟩
  | _, _, c, _, _, @ReadsCode.close _ _ _ after t h hd, hg => by
    have hskip := c.passes_skipBlanks
    have hbrace := Token.depthAfter?_eq_none hd
    have hpasses := h.passes_closeBrace hbrace
    obtain ⟨us, -, hus, hmove⟩ := h.exists_move (hg.passes hskip)
    obtain rfl := hus.unique hpasses
    refine ⟨_, hskip.append hpasses, fun dollar' rest => ?_⟩
    have htoken := hmove rest (by simp [hbrace, Token.goesOn])
    rw [← skipBlanks_move hg (List.cons_ne_nil _ _) hus] at htoken
    have hcode : ReadsCode dollar' _ _ _ _ := .close htoken
      (by rw [Spanned.mapSpans_token, Token.depthAfter?_mapSpans, hd])
    rw [Spanned.mapSpans_span] at hcode
    exact hcode
  | _, _, c, _, _, @ReadsCode.token _ _ _ _ mid after t others h hd ho, hg => by
    have hskip := c.passes_skipBlanks
    obtain ⟨us, hne, hus, hmove⟩ := h.exists_move (hg.passes hskip)
    obtain ⟨vs, hvs, hothers⟩ := ho.exists_move (hg.passes (hskip.append hus))
    have hpasses := (hskip.append hus).append hvs
    rw [← List.append_assoc] at hpasses
    refine ⟨_, hpasses, fun dollar' rest => ?_⟩
    have hgoes : t.token.goesOn (vs ++ '\x7d' :: rest) = t.token.goesOn mid.rest := by
      rw [hvs.rest, List.append_assoc]
      exact t.token.goesOn_append_brace vs rest after.rest
    have htoken := hmove (vs ++ '\x7d' :: rest) (by rw [hgoes]; exact id)
    rw [← skipBlanks_move hg hne hus] at htoken
    have hcode := ReadsCode.token htoken
      (by rw [Spanned.mapSpans_token, Token.depthAfter?_mapSpans, hd]) (hothers dollar' rest)
    rw [Spanned.mapSpans_token, Token.isComment_mapSpans] at hcode
    rw [← List.append_assoc, ← List.append_assoc] at hcode
    rw [apply_ite (Spanned.mapSpansAll _)]
    exact hcode

end

/-- A token with the blank characters before it can be moved, and put before a text that goes on
with it only if its own did. -/
theorem yields_next_move {g : Nat → Nat} {c after : Cursor} {t : Spanned}
    (hg : Slides g c.position) (h : c.next.Yields t after) :
    ∃ us, c.Passes us after ∧ ∀ rest,
      (t.token.goesOn rest = true → t.token.goesOn after.rest = true) →
      (⟨g c.position, us ++ rest⟩ : Cursor).next.Yields (t.mapSpans (Span.move g))
        ⟨g after.position, rest⟩ := by
  have hskip := c.passes_skipBlanks
  obtain ⟨us, hne, hus, hmove⟩ := (readsToken_of_yields h).exists_move (hg.passes hskip)
  refine ⟨_, hskip.append hus, fun rest hrest => ?_⟩
  rw [List.append_assoc, yields_next_iff, skipBlanks_move hg hne hus]
  exact hmove rest hrest

end Cursor

/-! ## The whole text elsewhere -/

section

variable {g : Nat → Nat}

theorem stretch_move {quotes : Quotes} {opening : Nat} {c : Cursor} {text : List Char}
    {stop : StretchEnd} (h : stretch quotes opening c = .ok (text, stop))
    (hg : Slides g c.position) (opening' : Nat) :
    stretch quotes opening' (c.move g) = .ok (text, stop.move g stop.next.rest) := by
  obtain ⟨us, -, hus, hmove⟩ := exists_move_stretch h hg
  have hstretch := hmove opening' stop.next.rest
  rwa [← hus.rest] at hstretch

theorem lineStretch_move_error {opening p : Nat} {cs : List Char} {e : LexError}
    (h : lineStretch opening p cs = .error e) (hg : Slides g p) :
    lineStretch (g opening) (g p) cs = .error (e.move g) := by
  fun_induction lineStretch opening p cs with
  | case1 | case3 =>
    cases h
    rfl
  | case4 =>
    cases h
    rw [lineStretch, ← hg]
    rfl
  | case2 | case5 | case8 | case9 => cases h
  | case6 p c cs d hd e' hs ih =>
    cases h
    have hrest := ih hs ((hg.add 1).add _)
    rw [hg.add 1, hg] at hrest
    rw [lineStretch]
    simp only [hd, hrest]
  | case7 p c cs hd =>
    cases h
    rw [lineStretch, ← hg, ← hg.add 1]
    simp only [hd]
    rfl
  | case10 p c cs hquote hfeed hlast hescape hcode e' hs ih =>
    cases h
    have hrest := ih hs (hg.add _)
    rw [hg] at hrest
    rw [lineStretch]
    · rw [hrest]
    all_goals assumption

theorem verbatimStretch_move_error {opening p : Nat} {cs : List Char} {e : LexError}
    (h : verbatimStretch opening p cs = .error e) (hg : Slides g p) :
    verbatimStretch (g opening) (g p) cs = .error (e.move g) := by
  fun_induction verbatimStretch opening p cs with
  | case1 =>
    cases h
    rfl
  | case2 | case3 | case4 => cases h
  | case5 p c cs hquotes hcode e' hs ih =>
    cases h
    have hrest := ih hs (hg.add _)
    rw [hg] at hrest
    rw [verbatimStretch]
    · rw [hrest]
    · exact hquotes
    · exact hcode

theorem stretch_move_error {quotes : Quotes} {opening : Nat} {c : Cursor} {e : LexError}
    (h : stretch quotes opening c = .error e) (hg : Slides g c.position) :
    stretch quotes (g opening) (c.move g) = .error (e.move g) := by
  cases quotes with
  | line => exact lineStretch_move_error h hg
  | block =>
    rw [stretch_block] at h ⊢
    exact verbatimStretch_move_error h hg

namespace Cursor

theorem move_skipBlanks {c : Cursor} (hg : Slides g c.position) :
    (c.move g).skipBlanks = c.skipBlanks.move g := by
  simp only [move, skipBlanks, hg _]

theorem ReadsToken.move {c after : Cursor} {t : Spanned} (h : ReadsToken c t after)
    (hg : Slides g c.position) :
    ReadsToken (c.move g) (t.mapSpans (Span.move g)) (after.move g) := by
  obtain ⟨us, -, hus, hmove⟩ := h.exists_move hg
  have hreads := hmove after.rest id
  rwa [← hus.rest] at hreads

theorem ReadsCode.move {dollar depth : Nat} {c after : Cursor} {tokens : List Spanned}
    (h : ReadsCode dollar depth c tokens after) (hg : Slides g c.position) (dollar' : Nat) :
    ReadsCode dollar' depth (c.move g) (Spanned.mapSpansAll (Span.move g) tokens)
      (after.move g) := by
  obtain ⟨us, hus, hmove⟩ := h.exists_move hg
  have hreads := hmove dollar' after.rest
  rwa [List.append_cons, ← hus.rest] at hreads

mutual

/-- A reading fails in the same way at another position. -/
theorem FailsToken.move : ∀ {c : Cursor} {e : LexError},
    FailsToken c e → Slides g c.position → FailsToken (c.move g) (e.move g)
  | _, _, @FailsToken.lexeme p ch cs fault hch hl, hg => by
    have hfails : FailsToken ⟨g p, ch :: cs⟩ _ := .lexeme hch hl
    rwa [← hg] at hfails
  | _, _, @FailsToken.block p cs e h, hg => by
    have hstring := h.move (hg.add 3)
    rw [Cursor.move, hg] at hstring
    exact .block hstring
  | _, _, @FailsToken.line p cs e hcs h, hg => by
    have hstring := h.move (hg.add 1)
    rw [Cursor.move, hg] at hstring
    exact .line hcs hstring

theorem FailsString.move : ∀ {quotes : Quotes} {opening : Nat} {c : Cursor} {e : LexError},
    FailsString quotes opening c e → Slides g c.position →
    FailsString quotes (g opening) (c.move g) (e.move g)
  | _, _, _, _, .stretch h, hg => .stretch (stretch_move_error h hg)
  | _, opening, _, _, .code h hcode, hg => by
    obtain ⟨us, -, hus⟩ := passes_of_stretch h
    exact .code (stretch_move h hg (g opening)) (hcode.move (hg.passes hus))
  | _, opening, _, _, .later h hcode ho, hg => by
    obtain ⟨us, -, hus⟩ := passes_of_stretch h
    obtain ⟨vs, hvs, -⟩ := hcode.exists_move (hg.passes hus)
    exact .later (stretch_move h hg (g opening)) (hcode.move (hg.passes hus) _)
      (ho.move (hg.passes (hus.append hvs)))

theorem FailsCode.move : ∀ {dollar depth : Nat} {c : Cursor} {e : LexError},
    FailsCode dollar depth c e → Slides g c.position →
    FailsCode (g dollar) depth (c.move g) (e.move g)
  | dollar, depth, c, _, .finish h, hg => by
    have hskip := move_skipBlanks hg
    have hfails : FailsCode (g dollar) depth (c.move g) _ := .finish (hskip ▸ h)
    rwa [hskip] at hfails
  | _, _, c, _, .token h, hg =>
    .token (move_skipBlanks hg ▸ h.move (hg.passes c.passes_skipBlanks))
  | _, _, c, _, .later h hd ho, hg => by
    have hskip := hg.passes c.passes_skipBlanks
    obtain ⟨us, -, hus, -⟩ := h.exists_move hskip
    have hreads := h.move hskip
    rw [← move_skipBlanks hg] at hreads
    refine .later hreads ?_ (ho.move (hskip.passes hus))
    rw [Spanned.mapSpans_token, Token.depthAfter?_mapSpans, hd]

end

/-- The tokens of a text and its error are the same wherever it stands, but for their places. -/
theorem tokens_move {c : Cursor} (hg : Slides g c.position) :
    (c.move g).tokens = c.tokens.move g := by
  fun_induction tokens c with
  | case1 c p hn =>
    obtain ⟨hrest, rfl⟩ := finish_of_next hn
    have hskip := move_skipBlanks hg
    rw [tokens_of_finish (next_eq_finish (hskip ▸ hrest)), hskip]
    rfl
  | case2 c e hn =>
    have hfails := (failsToken_of_next hn).move (hg.passes c.passes_skipBlanks)
    rw [← move_skipBlanks hg] at hfails
    rw [tokens_of_error (next_eq_error_iff.2 hfails)]
    rfl
  | case3 c t after hafter hn others ih =>
    obtain ⟨us, hus, hmove⟩ := yields_next_move hg ⟨hafter, hn⟩
    have hnext := hmove after.rest id
    rw [← hus.rest] at hnext
    have hothers := ih (hg.passes hus)
    rw [move, tokens_of_yields hnext, ← move, hothers]
    rfl

end Cursor

end

end ConfigExpr
