import ConfigExpr.Proofs.Lexemes

/-!
# Where readings stand

A cursor reaches those after it in its text, and a reading takes the text between two cursors. So
the span of a token marks the text it was read from (`ReadsToken.extent`), the tokens in a string
follow one another inside it (`ReadsToken.chain`), and the span of a lexical error marks a text of
the source too (`FailsToken.covers`).
-/

namespace ConfigExpr

/-- A byte position between two characters of a text, or at either end. -/
def Boundary (source : List Char) (p : Nat) : Prop :=
  ∃ before, before <+: source ∧ bytes before = p

namespace Span

/-- The span marks this text of the source. -/
def Marks (s : Span) (source text : List Char) : Prop :=
  ∃ before after, source = before ++ (text ++ after) ∧
    s = ⟨bytes before, bytes before + bytes text⟩

/-- The span lies in the source, and both its ends on boundaries of characters. -/
structure Within (s : Span) (source : List Char) : Prop where
  start_le_stop : s.start ≤ s.stop
  stop_le : s.stop ≤ bytes source
  start : Boundary source s.start
  stop : Boundary source s.stop

theorem Marks.within {s : Span} {source text : List Char} (h : s.Marks source text) :
    s.Within source := by
  obtain ⟨before, after, rfl, rfl⟩ := h
  refine ⟨Nat.le_add_right _ _, ?_, ⟨before, List.prefix_append _ _, rfl⟩, before ++ text, ?_, ?_⟩
  · simp only [bytes_append]
    omega
  · rw [← List.append_assoc]
    exact List.prefix_append _ _
  · exact bytes_append before text

/-- The spans follow one another between two positions. -/
def Chain (lo hi : Nat) : List Span → Prop
  | [] => lo ≤ hi
  | s :: ss => lo ≤ s.start ∧ s.start ≤ s.stop ∧ Chain s.stop hi ss

namespace Chain

variable {lo mid hi : Nat} {ss ss' : List Span}

theorem le (h : Chain lo hi ss) : lo ≤ hi := by
  induction ss generalizing lo with
  | nil => exact h
  | cons s ss ih => exact Nat.le_trans h.1 (Nat.le_trans h.2.1 (ih h.2.2))

theorem of_le {lo' : Nat} (h : Chain lo hi ss) (hlo : lo' ≤ lo) : Chain lo' hi ss := by
  cases ss with
  | nil => exact Nat.le_trans hlo h
  | cons s ss => exact ⟨Nat.le_trans hlo h.1, h.2⟩

theorem stop_le (h : Chain lo hi ss) : ∀ s ∈ ss, s.stop ≤ hi := by
  induction ss generalizing lo with
  | nil => exact List.forall_mem_nil _
  | cons s ss ih => exact List.forall_mem_cons.2 ⟨le h.2.2, ih h.2.2⟩

theorem le_start (h : Chain lo hi ss) : ∀ s ∈ ss, lo ≤ s.start := by
  induction ss generalizing lo with
  | nil => exact List.forall_mem_nil _
  | cons s ss ih =>
    refine List.forall_mem_cons.2 ⟨h.1, fun t ht => ?_⟩
    exact Nat.le_trans (Nat.le_trans h.1 h.2.1) (ih h.2.2 t ht)

/-- Each span ends before those after it begin. -/
theorem pairwise (h : Chain lo hi ss) : ss.Pairwise fun s t => s.stop ≤ t.start := by
  induction ss generalizing lo with
  | nil => exact .nil
  | cons s ss ih => exact .cons h.2.2.le_start (ih h.2.2)

theorem append (h : Chain lo mid ss) (h' : Chain mid hi ss') : Chain lo hi (ss ++ ss') := by
  induction ss generalizing lo with
  | nil => exact h'.of_le h
  | cons s ss ih => exact ⟨h.1, h.2.1, ih h.2.2⟩

end Chain

end Span

namespace Cursor

/-- The first cursor comes to the second after the text given. -/
structure Passes (c : Cursor) (text : List Char) (after : Cursor) : Prop where
  rest : c.rest = text ++ after.rest
  position : after.position = c.position + bytes text

/-- The second cursor stands in the text after the first. -/
def Reaches (c after : Cursor) : Prop :=
  ∃ text, c.Passes text after

/-- The span marks a text after the cursor. -/
def Covers (c : Cursor) (s : Span) : Prop :=
  ∃ mid after, c.Reaches mid ∧ mid.Reaches after ∧ s = ⟨mid.position, after.position⟩

variable {b c mid after : Cursor} {text others : List Char} {s : Span}

theorem Passes.append (h : c.Passes text mid) (h' : mid.Passes others after) :
    c.Passes (text ++ others) after := by
  refine ⟨by rw [h.rest, h'.rest, List.append_assoc], ?_⟩
  rw [h'.position, h.position, bytes_append, Nat.add_assoc]

theorem Passes.le (h : c.Passes text after) : c.position ≤ after.position := by
  rw [h.position]
  exact Nat.le_add_right _ _

/-- The text ends at the same position for both. -/
theorem Passes.position_add (h : c.Passes text after) :
    after.position + bytes after.rest = c.position + bytes c.rest := by
  rw [h.rest, h.position, bytes_append, Nat.add_assoc]

theorem Passes.unique (h : c.Passes text after) (h' : c.Passes others after) : text = others :=
  List.append_cancel_right (h.rest.symm.trans h'.rest)

theorem Reaches.refl (c : Cursor) : c.Reaches c :=
  ⟨[], rfl, rfl⟩

theorem Reaches.trans (h : c.Reaches mid) (h' : mid.Reaches after) : c.Reaches after := by
  obtain ⟨text, h⟩ := h
  obtain ⟨others, h'⟩ := h'
  exact ⟨text ++ others, h.append h'⟩

theorem Reaches.char {p : Nat} {ch : Char} {cs : List Char} (h : c.Reaches ⟨p, ch :: cs⟩) :
    c.Reaches ⟨p + ch.utf8Size, cs⟩ :=
  h.trans ⟨[ch], rfl, rfl⟩

theorem Covers.of_reaches (h : b.Reaches c) (hs : c.Covers s) : b.Covers s := by
  obtain ⟨mid, after, hmid, hafter, rfl⟩ := hs
  exact ⟨mid, after, h.trans hmid, hafter, rfl⟩

theorem passes_skipBlanks (c : Cursor) :
    c.Passes (c.rest.takeWhile Text.isBlank) c.skipBlanks :=
  ⟨List.takeWhile_append_dropWhile.symm, rfl⟩

theorem passes_lexeme (p : Nat) (ch : Char) (cs : List Char) :
    (⟨p, ch :: cs⟩ : Cursor).Passes (lexeme ch cs).text
      ⟨p + bytes (lexeme ch cs).text, (lexeme ch cs).rest⟩ :=
  ⟨(lexeme ch cs).text_append_rest.symm, rfl⟩

theorem Reaches.exists_before {source : List Char} (h : (start source).Reaches c) :
    ∃ before, source = before ++ c.rest ∧ c.position = bytes before := by
  obtain ⟨before, h⟩ := h
  exact ⟨before, h.rest, h.position.trans (Nat.zero_add _)⟩

/-- What stands after the start of a source is marked by its positions. -/
theorem Passes.marks {source : List Char} (h : (start source).Reaches c)
    (h' : c.Passes text after) : Span.Marks ⟨c.position, after.position⟩ source text := by
  obtain ⟨before, hsource, hposition⟩ := h.exists_before
  refine ⟨before, after.rest, by rw [← h'.rest, hsource], ?_⟩
  rw [h'.position, hposition]

theorem Covers.within {source : List Char} (h : (start source).Covers s) : s.Within source := by
  obtain ⟨mid, after, hmid, ⟨text, hafter⟩, rfl⟩ := h
  exact (hafter.marks hmid).within

end Cursor

/-! ## Stretches of plain text -/

open Cursor

/-- The characters that close a string. -/
def Quotes.marks : Quotes → List Char
  | .line => ['"']
  | .block => ['"', '"', '"']

namespace StretchEnd

/-- The characters that end a stretch. -/
def ending (quotes : Quotes) : StretchEnd → List Char
  | .closed _ => quotes.marks
  | .code _ _ => ['$', '\x7b']

/-- The same end of a stretch where its characters begin at another place. -/
def place (quotes : Quotes) (p : Nat) (rest : List Char) : StretchEnd → StretchEnd
  | .closed _ => .closed ⟨p + quotes.marks.length, rest⟩
  | .code _ _ => .code p ⟨p + 2, rest⟩

theorem one_le_ending (quotes : Quotes) (stop : StretchEnd) : 1 ≤ (stop.ending quotes).length := by
  cases stop <;> cases quotes <;> simp [ending, Quotes.marks]

theorem two_le_ending_block (stop : StretchEnd) : 2 ≤ (stop.ending .block).length := by
  cases stop <;> simp [ending, Quotes.marks]

end StretchEnd

/-- A short beginning of a text does not depend on what follows its end. -/
theorem isPrefix_append_congr {l vs ws rest rest' : List Char} (h : l <+: vs ++ (ws ++ rest))
    (hlength : l.length ≤ ws.length) : l <+: vs ++ (ws ++ rest') := by
  rw [← List.append_assoc] at h ⊢
  have hle : l.length ≤ (vs ++ ws).length := by
    rw [List.length_append]
    omega
  exact (List.prefix_of_prefix_length_le h (List.prefix_append _ _) hle).trans
    (List.prefix_append _ _)

theorem exists_of_lineStretch {opening p : Nat} {cs text : List Char} {stop : StretchEnd}
    (h : lineStretch opening p cs = .ok (text, stop)) :
    ∃ us, cs = us ++ (stop.ending .line ++ stop.next.rest) ∧ ∀ opening' q rest,
      lineStretch opening' q (us ++ (stop.ending .line ++ rest)) =
        .ok (text, stop.place .line (q + bytes us) rest) := by
  fun_induction lineStretch opening p cs generalizing text stop with
  | case1 | case3 | case4 | case6 | case7 | case10 => cases h
  | case2 p cs =>
    cases h
    refine ⟨[], rfl, fun opening' q rest => ?_⟩
    simp [StretchEnd.ending, Quotes.marks, lineStretch, StretchEnd.place]
  | case5 p c cs d hd text' stop' hs ih =>
    cases h
    obtain ⟨us, rfl, hus⟩ := ih hs
    refine ⟨'\\' :: c :: us, rfl, fun opening' q rest => ?_⟩
    simp only [List.cons_append, lineStretch, hd, hus]
    rw [bytes_cons, bytes_cons, show ('\\' : Char).utf8Size = 1 from rfl, Nat.add_assoc q 1,
      Nat.add_assoc q, Nat.add_assoc 1]
  | case8 p cs =>
    cases h
    refine ⟨[], rfl, fun opening' q rest => ?_⟩
    simp [StretchEnd.ending, lineStretch, StretchEnd.place]
  | case9 p c cs h₁ h₂ h₃ h₄ h₅ text' stop' hs ih =>
    cases h
    obtain ⟨us, rfl, hus⟩ := ih hs
    have hslash : c ≠ '\\' := by
      intro hc
      cases hcs : us ++ (stop'.ending .line ++ stop'.next.rest) with
      | nil => exact h₃ hc hcs
      | cons d ds => exact h₄ d ds hc hcs
    refine ⟨c :: us, rfl, fun opening' q rest => ?_⟩
    rw [List.cons_append, lineStretch]
    · rw [hus, bytes_cons, Nat.add_assoc]
    · exact h₁
    · exact h₂
    · exact fun hc _ => hslash hc
    · exact fun _ _ hc _ => hslash hc
    · intro ds hc hds
      obtain ⟨es, hes⟩ := isPrefix_append_congr (l := ['\x7b']) ⟨ds, hds.symm⟩
        (stop'.one_le_ending .line)
      exact h₅ es hc hes.symm

/-- A stretch of a block string with the closing quotes looked for at each character. -/
def verbatimStretch (opening : Nat) : Nat → List Char → Except LexError (List Char × StretchEnd)
  | p, [] => .error ⟨.unterminatedBlock, ⟨opening, p⟩⟩
  | p, '"' :: '"' :: '"' :: cs => .ok ([], .closed ⟨p + 3, cs⟩)
  | p, '$' :: '\x7b' :: cs => .ok ([], .code p ⟨p + 2, cs⟩)
  | p, c :: cs =>
    match verbatimStretch opening (p + c.utf8Size) cs with
    | .ok (text, stop) => .ok (c :: text, stop)
    | .error e => .error e

/-- Where two quotes stand before something else, no closing quotes begin at the second either. -/
theorem verbatimStretch_two_quotes (opening p : Nat) {cs : List Char}
    (h : ∀ after, cs ≠ '"' :: after) :
    verbatimStretch opening p ('"' :: '"' :: cs) =
      match verbatimStretch opening (p + 2) cs with
      | .ok (text, stop) => .ok ('"' :: '"' :: text, stop)
      | .error e => .error e := by
  have hsecond : verbatimStretch opening (p + 1) ('"' :: cs) =
      match verbatimStretch opening (p + 2) cs with
      | .ok (text, stop) => .ok ('"' :: text, stop)
      | .error e => .error e := by
    rw [verbatimStretch]
    · rfl
    · exact fun after _ hafter => h _ hafter
    · simp
  rw [verbatimStretch]
  · rw [show ('"' : Char).utf8Size = 1 from rfl, hsecond]
    cases verbatimStretch opening (p + 2) cs <;> rfl
  · simpa using h
  · simp

theorem blockStretch_eq_verbatimStretch (opening p : Nat) (cs : List Char) :
    blockStretch opening p cs = verbatimStretch opening p cs := by
  fun_induction blockStretch opening p cs with
  | case1 | case2 | case5 => rfl
  | case3 p cs text stop hs hthird ih | case4 p cs e hs hthird ih =>
    rw [verbatimStretch_two_quotes opening p hthird, ← ih, hs]
  | case6 p c cs hquotes hcode text stop hs ih | case7 p c cs hquotes hcode e hs ih =>
    rw [verbatimStretch]
    · rw [← ih, hs]
    · exact fun after hc hcs => hquotes _ hc hcs
    · exact hcode

theorem stretch_block (opening : Nat) (c : Cursor) :
    stretch .block opening c = verbatimStretch opening c.position c.rest :=
  blockStretch_eq_verbatimStretch opening c.position c.rest

theorem exists_of_verbatimStretch {opening p : Nat} {cs text : List Char} {stop : StretchEnd}
    (h : verbatimStretch opening p cs = .ok (text, stop)) :
    ∃ us, cs = us ++ (stop.ending .block ++ stop.next.rest) ∧ ∀ opening' q rest,
      verbatimStretch opening' q (us ++ (stop.ending .block ++ rest)) =
        .ok (text, stop.place .block (q + bytes us) rest) := by
  fun_induction verbatimStretch opening p cs generalizing text stop with
  | case1 | case5 => cases h
  | case2 p cs =>
    cases h
    refine ⟨[], rfl, fun opening' q rest => ?_⟩
    simp [StretchEnd.ending, Quotes.marks, verbatimStretch, StretchEnd.place]
  | case3 p cs =>
    cases h
    refine ⟨[], rfl, fun opening' q rest => ?_⟩
    simp [StretchEnd.ending, verbatimStretch, StretchEnd.place]
  | case4 p c cs hquotes hcode text' stop' hs ih =>
    cases h
    obtain ⟨us, rfl, hus⟩ := ih hs
    refine ⟨c :: us, rfl, fun opening' q rest => ?_⟩
    rw [List.cons_append, verbatimStretch]
    · rw [hus, bytes_cons, Nat.add_assoc]
    · intro ds hc hds
      obtain ⟨es, hes⟩ := isPrefix_append_congr (l := ['"', '"']) ⟨ds, hds.symm⟩
        stop'.two_le_ending_block
      exact hquotes es hc hes.symm
    · intro ds hc hds
      obtain ⟨es, hes⟩ := isPrefix_append_congr (l := ['\x7b']) ⟨ds, hds.symm⟩
        (stop'.one_le_ending .block)
      exact hcode es hc hes.symm

/-- A stretch is the same wherever it stands and whatever follows its end. -/
theorem exists_of_stretch {quotes : Quotes} {opening : Nat} {c : Cursor} {text : List Char}
    {stop : StretchEnd} (h : stretch quotes opening c = .ok (text, stop)) :
    ∃ us, c.rest = us ++ (stop.ending quotes ++ stop.next.rest) ∧
      stop = stop.place quotes (c.position + bytes us) stop.next.rest ∧
      ∀ opening' q rest, stretch quotes opening' ⟨q, us ++ (stop.ending quotes ++ rest)⟩ =
        .ok (text, stop.place quotes (q + bytes us) rest) := by
  have hexists : ∃ us, c.rest = us ++ (stop.ending quotes ++ stop.next.rest) ∧
      ∀ opening' q rest, stretch quotes opening' ⟨q, us ++ (stop.ending quotes ++ rest)⟩ =
        .ok (text, stop.place quotes (q + bytes us) rest) := by
    cases quotes with
    | line => exact exists_of_lineStretch h
    | block =>
      simp only [stretch_block] at h ⊢
      exact exists_of_verbatimStretch h
  obtain ⟨us, hrest, hus⟩ := hexists
  refine ⟨us, hrest, ?_, hus⟩
  have hagain := hus opening c.position stop.next.rest
  rw [← hrest] at hagain
  exact (Prod.mk.inj (Except.ok.inj (h.symm.trans hagain))).2

theorem covers_of_lineStretch {b : Cursor} {opening p : Nat} {cs : List Char} {e : LexError}
    (h : lineStretch opening p cs = .error e) (hb : b.position = opening)
    (hreaches : b.Reaches ⟨p, cs⟩) : b.Covers e.span := by
  fun_induction lineStretch opening p cs with
  | case1 | case3 =>
    cases h
    exact ⟨b, _, .refl b, hreaches, by rw [hb]⟩
  | case2 | case5 | case8 | case9 => cases h
  | case4 p =>
    cases h
    exact ⟨_, _, hreaches, (Reaches.refl _).char, rfl⟩
  | case6 p c cs d hd e' hs ih =>
    cases h
    exact ih hs hreaches.char.char
  | case7 p c cs hd =>
    cases h
    exact ⟨_, _, hreaches, (Reaches.refl _).char.char, rfl⟩
  | case10 p c cs _ _ _ _ _ e' hs ih =>
    cases h
    exact ih hs hreaches.char

theorem covers_of_verbatimStretch {b : Cursor} {opening p : Nat} {cs : List Char} {e : LexError}
    (h : verbatimStretch opening p cs = .error e) (hb : b.position = opening)
    (hreaches : b.Reaches ⟨p, cs⟩) : b.Covers e.span := by
  fun_induction verbatimStretch opening p cs with
  | case1 =>
    cases h
    exact ⟨b, _, .refl b, hreaches, by rw [hb]⟩
  | case2 | case3 | case4 => cases h
  | case5 p c cs _ _ e' hs ih =>
    cases h
    exact ih hs hreaches.char

/-- A fault in a string lies after its opening quotes. -/
theorem covers_of_stretch {b c : Cursor} {quotes : Quotes} {opening : Nat} {e : LexError}
    (h : stretch quotes opening c = .error e) (hb : b.position = opening) (hreaches : b.Reaches c) :
    b.Covers e.span := by
  cases quotes with
  | line => exact covers_of_lineStretch h hb hreaches
  | block =>
    rw [stretch_block] at h
    exact covers_of_verbatimStretch h hb hreaches

theorem bytes_marks (quotes : Quotes) : bytes quotes.marks = quotes.marks.length := by
  cases quotes <;> rfl

theorem passes_of_stretch {quotes : Quotes} {opening : Nat} {c : Cursor} {text : List Char}
    {stop : StretchEnd} (h : stretch quotes opening c = .ok (text, stop)) :
    ∃ us, us ≠ [] ∧ c.Passes us stop.next := by
  obtain ⟨us, hrest, hplace, -⟩ := exists_of_stretch h
  refine ⟨us ++ stop.ending quotes, ?_, by rw [hrest, List.append_assoc], ?_⟩
  · have hpos := stop.one_le_ending quotes
    intro hnil
    rw [(List.append_eq_nil_iff.1 hnil).2] at hpos
    exact absurd hpos (by decide)
  · rw [hplace, bytes_append, ← Nat.add_assoc]
    cases stop with
    | closed next => exact congrArg _ (bytes_marks quotes).symm
    | code dollar next => rfl

/-- The dollar sign of code stands before the code, in the string. -/
theorem exists_of_stretch_code {quotes : Quotes} {opening dollar : Nat} {c inside : Cursor}
    {text : List Char} (h : stretch quotes opening c = .ok (text, .code dollar inside)) :
    ∃ b : Cursor, b.position = dollar ∧ c.Reaches b ∧ b.Reaches inside := by
  obtain ⟨us, hrest, hplace, -⟩ := exists_of_stretch h
  obtain ⟨rfl, hinside⟩ := StretchEnd.code.inj hplace
  refine ⟨⟨_, '$' :: '\x7b' :: inside.rest⟩, rfl, ⟨us, hrest, rfl⟩, ['$', '\x7b'], rfl, ?_⟩
  exact congrArg Cursor.position hinside

/-! ## Tokens in strings -/

def StringPart.tokens : StringPart → List Spanned
  | .text _ => []
  | .code tokens => tokens

theorem StringPart.flatMap_tokens_ofText (text : List Char) :
    (ofText text).flatMap tokens = [] := by
  unfold ofText
  split <;> rfl

namespace Spanned

/-- The tokens of the code directly in a string. -/
def inner (t : Spanned) : List Spanned :=
  match t.token with
  | .string parts => parts.flatMap StringPart.tokens
  | _ => []

theorem inner_eq_nil_of_lexeme {ch : Char} {cs : List Char} {token : Token}
    (h : (lexeme ch cs).reading = .ok token) (s : Span) : inner ⟨token, s⟩ = [] := by
  cases token with
  | string parts => exact absurd (spelt_lexeme h).1 Token.Spelt.ne_string
  | _ => rfl

/-- The property holds of a token, of those directly in it and so on. -/
inductive Everywhere (p : Spanned → Prop) : Spanned → Prop where
  | intro {t : Spanned} : p t → (∀ u ∈ t.inner, Everywhere p u) → Everywhere p t

variable {p q : Spanned → Prop} {t : Spanned}

theorem Everywhere.self (h : t.Everywhere p) : p t := by
  cases h
  assumption

theorem Everywhere.inner {u : Spanned} (h : t.Everywhere p) (hu : u ∈ t.inner) :
    u.Everywhere p := by
  cases h with
  | intro _ hinner => exact hinner u hu

theorem Everywhere.imp (h : t.Everywhere p) (hpq : ∀ u, p u → q u) : t.Everywhere q := by
  induction h with
  | intro hp _ ih => exact .intro (hpq _ hp) ih

end Spanned

/-! ## Readings -/

theorem Token.depthAfter?_eq_none {t : Token} {depth : Nat} (h : t.depthAfter? depth = none) :
    t = .mark .closeBrace := by
  unfold depthAfter? at h
  split at h
  · cases h
  · rfl
  · cases h

namespace Cursor

variable {quotes : Quotes} {opening dollar depth : Nat} {c after : Cursor} {t : Spanned}
  {parts : List StringPart} {tokens : List Spanned}

theorem passes_quotes (quotes : Quotes) (p : Nat) (cs : List Char) :
    (⟨p, quotes.marks ++ cs⟩ : Cursor).Passes quotes.marks ⟨p + quotes.marks.length, cs⟩ :=
  ⟨rfl, congrArg _ (bytes_marks quotes).symm⟩

/-- The brace that closes code is one character. -/
theorem ReadsToken.passes_closeBrace (h : ReadsToken c t after)
    (ht : t.token = .mark .closeBrace) : c.Passes ['\x7d'] after := by
  cases h with
  | @lexeme p ch cs token _ _ hl =>
    obtain rfl : token = .mark .closeBrace := ht
    have hpasses := passes_lexeme p ch cs
    rw [(spelt_lexeme hl).1.closeBrace] at hpasses ⊢
    exact hpasses
  | block => cases ht
  | line => cases ht

mutual

theorem ReadsToken.extent : ∀ {c : Cursor} {t : Spanned} {after : Cursor}, ReadsToken c t after →
    t.span = ⟨c.position, after.position⟩ ∧ ∃ text, text ≠ [] ∧ c.Passes text after
  | _, _, _, .lexeme _ _ _ => ⟨rfl, _, Lexeme.text_ne_nil _, passes_lexeme _ _ _⟩
  | _, _, _, @ReadsToken.block p cs _ _ h => by
    obtain ⟨us, -, hus⟩ := h.passes
    exact ⟨rfl, _, List.cons_ne_nil _ _, (passes_quotes .block p cs).append hus⟩
  | _, _, _, @ReadsToken.line p cs _ _ _ h => by
    obtain ⟨us, -, hus⟩ := h.passes
    exact ⟨rfl, _, List.cons_ne_nil _ _, (passes_quotes .line p cs).append hus⟩

theorem ReadsString.passes : ∀ {quotes : Quotes} {opening : Nat} {c : Cursor}
    {parts : List StringPart} {after : Cursor}, ReadsString quotes opening c parts after →
    ∃ text, text ≠ [] ∧ c.Passes text after
  | _, _, _, _, _, .closed h => passes_of_stretch h
  | _, _, _, _, _, .code h hc ho => by
    obtain ⟨us, hne, hus⟩ := passes_of_stretch h
    obtain ⟨vs, hvs⟩ := hc.passes
    obtain ⟨ws, -, hws⟩ := ho.passes
    exact ⟨_, by simp [hne], (hus.append hvs).append hws⟩

theorem ReadsCode.passes : ∀ {dollar depth : Nat} {c : Cursor} {tokens : List Spanned}
    {after : Cursor}, ReadsCode dollar depth c tokens after →
    ∃ text, c.Passes (text ++ ['\x7d']) after
  | _, _, c, _, _, .close h hd =>
    ⟨_, c.passes_skipBlanks.append (h.passes_closeBrace (Token.depthAfter?_eq_none hd))⟩
  | _, _, c, _, _, .token h _ ho => by
    obtain ⟨-, us, -, hus⟩ := h.extent
    obtain ⟨vs, hvs⟩ := ho.passes
    have hpasses := (c.passes_skipBlanks.append hus).append hvs
    rw [← List.append_assoc] at hpasses
    exact ⟨_, hpasses⟩

end

theorem reaches_of_yields_next {t : Spanned} (h : c.next.Yields t after) : c.Reaches after := by
  obtain ⟨-, us, -, hus⟩ := (readsToken_of_yields h).extent
  exact ⟨_, c.passes_skipBlanks.append hus⟩

theorem position_of_yields_next {t : Spanned} (h : c.next.Yields t after) :
    after.position = t.span.stop := by
  rw [(readsToken_of_yields h).extent.1]

mutual

/-- The tokens in a string follow one another inside it. -/
theorem ReadsToken.chain : ∀ {c : Cursor} {t : Spanned} {after : Cursor}, ReadsToken c t after →
    Span.Chain t.span.start t.span.stop (t.inner.map (·.span))
  | _, _, _, .lexeme _ _ hl => by
    rw [Spanned.inner_eq_nil_of_lexeme hl]
    exact Nat.le_add_right _ _
  | _, _, _, .block h => h.chain.of_le (Nat.le_add_right _ _)
  | _, _, _, .line _ h => h.chain.of_le (Nat.le_add_right _ _)

theorem ReadsString.chain : ∀ {quotes : Quotes} {opening : Nat} {c : Cursor}
    {parts : List StringPart} {after : Cursor}, ReadsString quotes opening c parts after →
    Span.Chain c.position after.position ((parts.flatMap StringPart.tokens).map (·.span))
  | _, _, _, _, _, .closed h => by
    obtain ⟨us, -, hus⟩ := passes_of_stretch h
    rw [StringPart.flatMap_tokens_ofText]
    exact hus.le
  | _, _, _, _, _, .code h hc ho => by
    obtain ⟨us, -, hus⟩ := passes_of_stretch h
    rw [List.flatMap_append, StringPart.flatMap_tokens_ofText, List.nil_append, List.flatMap_cons,
      List.map_append]
    exact (hc.chain.append ho.chain).of_le hus.le

theorem ReadsCode.chain : ∀ {dollar depth : Nat} {c : Cursor} {tokens : List Spanned}
    {after : Cursor}, ReadsCode dollar depth c tokens after →
    Span.Chain c.position after.position (tokens.map (·.span))
  | _, _, c, _, _, .close h _ => by
    obtain ⟨hspan, us, -, hus⟩ := h.extent
    rw [hspan]
    exact ⟨c.passes_skipBlanks.le, Nat.le_refl _, hus.le⟩
  | _, _, c, _, _, .token h _ ho => by
    obtain ⟨hspan, us, -, hus⟩ := h.extent
    have hblank := c.passes_skipBlanks.le
    split
    · exact ho.chain.of_le (Nat.le_trans hblank hus.le)
    · rw [List.map_cons, hspan]
      exact ⟨hblank, hus.le, ho.chain⟩

end

end Cursor

/-- The token is read somewhere in the source, or marks the end of code there. -/
def Spanned.ReadIn (source : List Char) (t : Spanned) : Prop :=
  ∃ c, (Cursor.start source).Reaches c ∧
    ((∃ after, Cursor.ReadsToken c t after) ∨ t = ⟨.eof, .point c.position⟩)

namespace Cursor

variable {source : List Char}

mutual

theorem ReadsToken.everywhere : ∀ {c : Cursor} {t : Spanned} {after : Cursor},
    ReadsToken c t after → (start source).Reaches c → t.Everywhere (Spanned.ReadIn source)
  | _, _, _, .lexeme hb hq hl, hc => by
    refine .intro ⟨_, hc, .inl ⟨_, .lexeme hb hq hl⟩⟩ ?_
    rw [Spanned.inner_eq_nil_of_lexeme hl]
    exact List.forall_mem_nil _
  | _, _, _, @ReadsToken.block p cs _ _ h, hc =>
    .intro ⟨_, hc, .inl ⟨_, .block h⟩⟩ (h.everywhere (hc.trans ⟨_, passes_quotes .block p cs⟩))
  | _, _, _, @ReadsToken.line p cs _ _ hcs h, hc =>
    .intro ⟨_, hc, .inl ⟨_, .line hcs h⟩⟩ (h.everywhere (hc.trans ⟨_, passes_quotes .line p cs⟩))

theorem ReadsString.everywhere : ∀ {quotes : Quotes} {opening : Nat} {c : Cursor}
    {parts : List StringPart} {after : Cursor}, ReadsString quotes opening c parts after →
    (start source).Reaches c →
    ∀ t ∈ parts.flatMap StringPart.tokens, t.Everywhere (Spanned.ReadIn source)
  | _, _, _, _, _, .closed _, _ => by
    rw [StringPart.flatMap_tokens_ofText]
    exact List.forall_mem_nil _
  | _, _, _, _, _, .code h hcode ho, hc => by
    obtain ⟨us, -, hus⟩ := passes_of_stretch h
    obtain ⟨vs, hvs⟩ := hcode.passes
    have hinside := hc.trans ⟨us, hus⟩
    rw [List.flatMap_append, StringPart.flatMap_tokens_ofText, List.nil_append, List.flatMap_cons]
    intro t ht
    rcases List.mem_append.1 ht with ht | ht
    · exact hcode.everywhere hinside t ht
    · exact ho.everywhere (hinside.trans ⟨_, hvs⟩) t ht

theorem ReadsCode.everywhere : ∀ {dollar depth : Nat} {c : Cursor} {tokens : List Spanned}
    {after : Cursor}, ReadsCode dollar depth c tokens after → (start source).Reaches c →
    ∀ t ∈ tokens, t.Everywhere (Spanned.ReadIn source)
  | _, _, c, _, _, .close h _, hc => by
    rintro t (_ | ⟨_, ⟨⟩⟩)
    rw [h.extent.1]
    exact .intro ⟨_, hc.trans ⟨_, c.passes_skipBlanks⟩, .inr rfl⟩ (List.forall_mem_nil _)
  | _, _, c, _, _, .token h _ ho, hc => by
    have hskip := hc.trans ⟨_, c.passes_skipBlanks⟩
    obtain ⟨-, us, -, hus⟩ := h.extent
    have hothers := ho.everywhere (hskip.trans ⟨us, hus⟩)
    split
    · exact hothers
    · exact List.forall_mem_cons.2 ⟨h.everywhere hskip, hothers⟩

end

/-! ## Lexical errors -/

mutual

theorem FailsToken.covers : ∀ {c : Cursor} {e : LexError}, FailsToken c e → c.Covers e.span
  | _, _, .lexeme _ _ => ⟨_, _, .refl _, ⟨_, passes_lexeme _ _ _⟩, rfl⟩
  | _, _, @FailsToken.block p cs _ h => h.covers rfl ⟨_, passes_quotes .block p cs⟩
  | _, _, @FailsToken.line p cs _ _ h => h.covers rfl ⟨_, passes_quotes .line p cs⟩

theorem FailsString.covers : ∀ {b c : Cursor} {quotes : Quotes} {opening : Nat} {e : LexError},
    FailsString quotes opening c e → b.position = opening → b.Reaches c → b.Covers e.span
  | _, _, _, _, _, .stretch h, hb, hc => covers_of_stretch h hb hc
  | _, _, _, _, _, .code h hcode, _, hc => by
    obtain ⟨b', hb', hdollar, hinside⟩ := exists_of_stretch_code h
    exact (hcode.covers hb' hinside).of_reaches (hc.trans hdollar)
  | _, _, _, _, _, .later h hcode ho, hb, hc => by
    obtain ⟨us, -, hus⟩ := passes_of_stretch h
    obtain ⟨vs, hvs⟩ := hcode.passes
    exact ho.covers hb ((hc.trans ⟨us, hus⟩).trans ⟨_, hvs⟩)

theorem FailsCode.covers : ∀ {b c : Cursor} {dollar depth : Nat} {e : LexError},
    FailsCode dollar depth c e → b.position = dollar → b.Reaches c → b.Covers e.span
  | b, c, _, _, _, .finish _, hb, hc =>
    ⟨b, c.skipBlanks, .refl b, hc.trans ⟨_, c.passes_skipBlanks⟩, by rw [hb]⟩
  | _, c, _, _, _, .token h, _, hc =>
    h.covers.of_reaches (hc.trans ⟨_, c.passes_skipBlanks⟩)
  | _, c, _, _, _, .later h _ ho, hb, hc => by
    obtain ⟨-, us, -, hus⟩ := h.extent
    exact ho.covers hb ((hc.trans ⟨_, c.passes_skipBlanks⟩).trans ⟨us, hus⟩)

end

end Cursor

end ConfigExpr
