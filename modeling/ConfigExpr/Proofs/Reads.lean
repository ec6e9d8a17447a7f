import ConfigExpr.Expr.Render
import ConfigExpr.Program.Basic
import ConfigExpr.Proofs.Common
import ConfigExpr.Proofs.Reading

/-!
# Reading written text

`Spells cs rest p` says that the lexer reads tokens with the property `p` from `cs` on, wherever
that stands in a source, and leaves `rest`. A word or a number before `rest` ends there under the
condition `Ends rest`. For marks, words and numbers a lemma says what lexeme a text begins with.
-/

namespace ConfigExpr

/-- The lexer reads the tokens, none a comment, between two cursors. -/
inductive Cursor.Reads : Cursor → List Token → Cursor → Prop where
  | nil (c : Cursor) : Reads c [] c
  | cons {c mid after : Cursor} {t : Spanned} {us : List Token} :
    c.next.Yields t mid → t.token ≠ .comment → Reads mid us after → Reads c (t.token :: us) after

namespace Cursor

theorem Reads.trans {c mid after : Cursor} {us vs : List Token} (h : c.Reads us mid)
    (h' : mid.Reads vs after) : c.Reads (us ++ vs) after := by
  induction h with
  | nil c => exact h'
  | cons hnext hne _ ih => exact .cons hnext hne (ih h')

/-- The token at a cursor is the one after the blanks there. -/
theorem yields_next_congr {c c' after : Cursor} {t : Spanned} (h : c.skipBlanks = c'.skipBlanks) :
    c.next.Yields t after ↔ c'.next.Yields t after := by
  cases hr : c.skipBlanks.rest with
  | nil => exact iff_of_false (not_yields_next_nil hr) (not_yields_next_nil (h ▸ hr))
  | cons ch cs =>
    by_cases hch : ch = '"'
    · subst hch
      by_cases hblock : ∃ ds, cs = '"' :: '"' :: ds
      · obtain ⟨ds, rfl⟩ := hblock
        rw [yields_next_block hr, yields_next_block (h ▸ hr), h]
      · have hline : ∀ ds, cs ≠ '"' :: '"' :: ds := fun ds hds => hblock ⟨ds, hds⟩
        rw [yields_next_line hr hline, yields_next_line (h ▸ hr) hline, h]
    · rw [yields_next_lexeme hr hch, yields_next_lexeme (h ▸ hr) hch, h]

theorem skipBlanks_cons_blank {p : Nat} {b : Char} {cs : List Char}
    (hb : Text.isBlank b = true) :
    (⟨p, b :: cs⟩ : Cursor).skipBlanks = (⟨p + bytes [b], cs⟩ : Cursor).skipBlanks := by
  simp only [skipBlanks, List.takeWhile_cons, hb, if_true, List.dropWhile_cons]
  simp [bytes, Nat.add_assoc]

theorem skipBlanks_of_not_blank {p : Nat} {ch : Char} {cs : List Char}
    (h : Text.isBlank ch = false) : (⟨p, ch :: cs⟩ : Cursor).skipBlanks = ⟨p, ch :: cs⟩ := by
  simp [skipBlanks, h]

theorem Reads.blank {p : Nat} {b : Char} {cs : List Char} {u : Token} {us : List Token}
    {after : Cursor} (hb : Text.isBlank b = true)
    (h : (⟨p + bytes [b], cs⟩ : Cursor).Reads (u :: us) after) :
    (⟨p, b :: cs⟩ : Cursor).Reads (u :: us) after := by
  cases h with
  | cons hnext hne hrest =>
    exact .cons ((yields_next_congr (skipBlanks_cons_blank hb)).2 hnext) hne hrest

/-- Tokens that reach the end of the text are all of its tokens. -/
theorem Reads.tokens {c after : Cursor} {us : List Token} (h : c.Reads us after)
    (hend : after.skipBlanks.rest = []) :
    c.tokens.error = none ∧ c.tokens.tokens.map (·.token) = us ++ [.eof] ∧
      Program.withoutComments c.tokens.tokens = c.tokens.tokens := by
  induction h with
  | nil c =>
    rw [tokens_of_finish (next_eq_finish hend)]
    exact ⟨rfl, rfl, rfl⟩
  | @cons c mid _ t us hnext hne _ ih =>
    obtain ⟨herror, htokens, hkept⟩ := ih hend
    have hcomment : t.token.isComment = false := by
      unfold Token.isComment
      split
      · exact absurd ‹_› hne
      · rfl
    rw [tokens_of_yields hnext]
    refine ⟨herror, by rw [List.map_cons, htokens, List.cons_append], ?_⟩
    rw [Program.withoutComments, List.filter_cons_of_pos (by simp [hcomment])]
    exact congrArg (t :: ·) hkept

end Cursor

/-- The lexer reads tokens with the property `p` from `cs` on and leaves `rest`. -/
def Spells (cs rest : List Char) (p : List Token → Prop) : Prop :=
  ∀ n, ∃ m us, (⟨n, cs⟩ : Cursor).Reads us ⟨m, rest⟩ ∧ p us

namespace Spells

variable {cs mid rest : List Char} {p q r : List Token → Prop}

theorem nil (h : p []) : Spells cs cs p :=
  fun n => ⟨n, [], .nil _, h⟩

theorem mono (h : Spells cs rest p) (hpq : ∀ us, p us → q us) : Spells cs rest q := by
  intro n
  obtain ⟨m, us, hreads, hp⟩ := h n
  exact ⟨m, us, hreads, hpq us hp⟩

theorem append (h : Spells cs mid p) (h' : Spells mid rest q)
    (hr : ∀ us vs, p us → q vs → r (us ++ vs)) : Spells cs rest r := by
  intro n
  obtain ⟨m, us, hus, hp⟩ := h n
  obtain ⟨l, vs, hvs, hq⟩ := h' m
  exact ⟨l, us ++ vs, hus.trans hvs, hr us vs hp hq⟩

theorem space (h : Spells cs rest p) (hp : ¬ p []) : Spells (' ' :: cs) rest p := by
  intro n
  obtain ⟨m, us, hus, hp'⟩ := h (n + bytes [' '])
  cases us with
  | nil => exact absurd hp' hp
  | cons u us => exact ⟨m, u :: us, hus.blank rfl, hp'⟩

end Spells

/-! ## Marks and words -/

/-- Nothing here goes on with a token that may stand before it: no character of a word, no quotes
and no point before a digit. -/
def Ends (rest : List Char) : Prop :=
  ∀ c ∈ rest.head?, isWordRest c = false ∧ c ≠ '"' ∧
    (c = '.' → ∀ d ∈ rest.tail.head?, d.isDigit = false)

theorem ends_nil : Ends [] :=
  nofun

theorem ends_cons (c : Char) (cs : List Char)
    (h : isWordRest c = false ∧ c ≠ '"' ∧ c ≠ '.') : Ends (c :: cs) := by
  obtain ⟨hword, hquote, hdot⟩ := h
  rintro _ ⟨⟩
  exact ⟨hword, hquote, fun hc => absurd hc hdot⟩

theorem isBlank_of_isWordRest {c : Char} (h : isWordRest c = true) : Text.isBlank c = false := by
  have hc : c.toNat = 45 ∨ 48 ≤ c.toNat ∧ c.toNat ≤ 57 ∨ 65 ≤ c.toNat ∧ c.toNat ≤ 90 ∨
      c.toNat = 95 ∨ 97 ≤ c.toNat ∧ c.toNat ≤ 122 := by
    simp only [isWordRest, Char.isAlphanum, Char.isAlpha, Char.isUpper, Char.isLower, Char.isDigit,
      Bool.or_eq_true, Bool.and_eq_true, decide_eq_true_eq, beq_iff_eq, ge_iff_le,
      UInt32.le_iff_toNat_le] at h
    rcases h with (((h | h) | h) | rfl) | rfl
    · exact .inr (.inr (.inl h))
    · exact .inr (.inr (.inr (.inr h)))
    · exact .inr (.inl h)
    · decide
    · decide
  simp only [Text.isBlank, Text.Ranges.holds, Text.blankRanges, List.any_cons, List.any_nil,
    Bool.or_eq_false_iff, Bool.and_eq_false_iff, decide_eq_false_iff_not, and_true]
  omega

theorem isWordRest_of_isWordStart {c : Char} (h : isWordStart c = true) : isWordRest c = true := by
  unfold isWordStart at h
  unfold isWordRest Char.isAlphanum
  rcases Bool.or_eq_true_iff.1 h with h | h <;> simp [h]

theorem isWordRest_of_isDigit {c : Char} (h : c.isDigit = true) : isWordRest c = true := by
  simp [isWordRest, Char.isAlphanum, h]

theorem Ends.not_isDigit {rest : List Char} (h : Ends rest) :
    ∀ c ∈ rest.head?, c.isDigit = false := by
  intro c hc
  rw [← Bool.not_eq_true]
  intro hdigit
  have hword := isWordRest_of_isDigit hdigit
  rw [(h c hc).1] at hword
  cases hword

theorem lexeme_mark {m : Mark} {ch : Char} (h : Mark.ofChar? ch = some m) (hne : ch ≠ '=')
    (cs : List Char) :
    Text.isBlank ch = false ∧ ch ≠ '"' ∧ (lexeme ch cs).reading = .ok (.mark m) ∧
      (lexeme ch cs).rest = cs := by
  unfold Mark.ofChar? at h
  split at h
  case h_9 => exact absurd rfl hne
  all_goals
    cases h
    try exact ⟨rfl, by decide, rfl, rfl⟩

theorem lexeme_word {c : Char} (h : isWordStart c = true) (cs : List Char) :
    (lexeme c cs).reading = .ok (Token.ofWord (c :: cs.takeWhile isWordRest)) ∧
      (lexeme c cs).rest = cs.dropWhile isWordRest := by
  have hc : c ≠ '#' := by
    rintro rfl
    cases h
  unfold lexeme
  rw [if_neg hc, if_pos h]
  exact ⟨rfl, rfl⟩

/-! ## Numbers -/

theorem not_isWordStart_of_isDigit {d : Char} (hd : d.isDigit = true) : isWordStart d = false := by
  have hd := Char.isDigit_iff_toNat.1 hd
  rw [← Bool.not_eq_true]
  intro h
  simp only [isWordStart, Char.isAlpha, Char.isUpper, Char.isLower, Bool.or_eq_true,
    Bool.and_eq_true, decide_eq_true_eq, beq_iff_eq, ge_iff_le, UInt32.le_iff_toNat_le] at h
  rcases h with (h | h) | rfl
  · have : d.val.toNat ≤ 57 := hd.2
    have : 65 ≤ d.val.toNat := h.1
    omega
  · have : d.val.toNat ≤ 57 := hd.2
    have : 97 ≤ d.val.toNat := h.1
    omega
  · revert hd
    decide

/-- After its sign a number is read as far as its digits go. -/
theorem lexeme_number {sign : List Char} {d : Char} (hsign : sign = [] ∨ sign = ['-'])
    (hd : d.isDigit = true) (cs : List Char) :
    ∃ ch more, sign ++ d :: cs = ch :: more ∧ Text.isBlank ch = false ∧ ch ≠ '"' ∧
      (lexeme ch more).reading = (Lexeme.number sign d cs).reading ∧
      (lexeme ch more).rest = (Lexeme.number sign d cs).rest := by
  rcases hsign with rfl | rfl
  · have hhash : d ≠ '#' := by
      rintro rfl
      cases hd
    have hquote : d ≠ '"' := by
      rintro rfl
      cases hd
    refine ⟨d, cs, rfl, isBlank_of_isWordRest (isWordRest_of_isDigit hd), hquote, ?_⟩
    unfold lexeme
    rw [if_neg hhash, if_neg (by simp [not_isWordStart_of_isDigit hd]), if_pos hd]
    exact ⟨rfl, rfl⟩
  · refine ⟨'-', d :: cs, rfl, rfl, by decide, ?_⟩
    unfold lexeme
    rw [if_neg (by decide), if_neg (by decide), if_neg (by decide)]
    show (if d.isDigit then Lexeme.number ['-'] d cs else _).reading = _ ∧
      (if d.isDigit then Lexeme.number ['-'] d cs else _).rest = _
    rw [if_pos hd]
    exact ⟨rfl, rfl⟩

namespace Binary64

variable {whole fraction : List Char}

theorem toLower_of_isDigit {c : Char} (h : c.isDigit = true) : c.toLower = c := by
  have hle : c.val.toNat ≤ 57 := (Char.isDigit_iff_toNat.1 h).2
  refine dif_neg fun hupper => ?_
  have hge : 65 ≤ c.val.toNat := hupper.1
  omega

theorem readMagnitude?_digits (negative : Bool) (hwhole : whole ≠ [])
    (hdigits : ∀ c ∈ whole ++ fraction, c.isDigit = true) :
    readMagnitude? negative (whole ++ '.' :: fraction) =
      some (ofDigits negative whole fraction) := by
  obtain ⟨hw, hf⟩ := List.forall_mem_append.1 hdigits
  have hpoint : ∀ c ∈ ('.' :: fraction).head?, c.isDigit = false := by
    rintro _ ⟨⟩
    rfl
  obtain ⟨htake, hdrop⟩ := takeWhile_dropWhile_append hw hpoint
  have hnone : ∀ c ∈ ([] : List Char).head?, c.isDigit = false := nofun
  obtain ⟨hfraction, hrest⟩ := takeWhile_dropWhile_append hf hnone
  rw [List.append_nil] at hfraction hrest
  have hzero (n : Nat) : withinReach n 0 = 0 := by
    unfold withinReach
    omega
  unfold readMagnitude?
  simp [htake, hdrop, hfraction, hrest, hzero, hwhole, ofDigits]

/-- No word for infinity or not a number begins with a digit. -/
theorem readUnsigned?_of_isDigit (negative : Bool) {d : Char} (hd : d.isDigit = true)
    (cs : List Char) : readUnsigned? negative (d :: cs) = readMagnitude? negative (d :: cs) := by
  have hword {c : Char} {word : List Char} (hc : c.isDigit = false) :
      ¬ String.ofList ((d :: cs).map Char.toLower) = String.ofList (c :: word) := by
    rw [String.ofList_inj, List.map_cons, toLower_of_isDigit hd]
    rintro ⟨⟩
    cases hc.symm.trans hd
  unfold readUnsigned?
  dsimp only
  rw [if_neg (not_or.2 ⟨hword rfl, hword rfl⟩), if_neg (hword rfl)]

/-- A sign and digits around a point are the number nearest to the decimal that they write. -/
theorem read?_digits {sign : List Char} (hsign : sign = [] ∨ sign = ['-']) (hwhole : whole ≠ [])
    (hdigits : ∀ c ∈ whole ++ fraction, c.isDigit = true) :
    read? (String.ofList (sign ++ whole ++ '.' :: fraction)) =
      some (ofDigits (!sign.isEmpty) whole fraction) := by
  have hread (negative : Bool) := readMagnitude?_digits negative hwhole hdigits
  obtain ⟨d, ds, rfl⟩ := List.exists_cons_of_ne_nil hwhole
  have hd : d.isDigit = true := hdigits d List.mem_cons_self
  unfold read?
  rw [String.toList_ofList]
  rcases hsign with rfl | rfl
  · rw [List.nil_append, List.cons_append]
    split
    next h =>
      cases h
      cases hd
    next h =>
      cases h
      cases hd
    next => exact (readUnsigned?_of_isDigit false hd _).trans (hread false)
  · exact (readUnsigned?_of_isDigit true hd _).trans (hread true)

end Binary64

/-- Digits around a point are read as the number they write, so they are never an error. -/
theorem Lexeme.float_digits {sign whole fraction : List Char} (hsign : sign = [] ∨ sign = ['-'])
    (hwhole : whole ≠ []) (hdigits : ∀ c ∈ whole ++ fraction, c.isDigit = true) :
    float (sign ++ whole ++ '.' :: fraction) =
      .ok (.float (.ofDigits (!sign.isEmpty) whole fraction)) := by
  rw [float, Binary64.read?_digits hsign hwhole hdigits]

theorem exists_digits (n : Nat) :
    ∃ d ds, Nat.toDigits 10 n = d :: ds ∧ (∀ c ∈ d :: ds, c.isDigit = true) ∧
      Nat.ofDigitChars 10 (d :: ds) 0 = n := by
  cases h : Nat.toDigits 10 n with
  | nil => exact absurd h Nat.toDigits_ne_nil
  | cons d ds =>
    refine ⟨d, ds, rfl, fun c hc => ?_, ?_⟩
    · rw [← h] at hc
      exact Nat.isDigit_of_mem_toDigits (by omega) (by omega) hc
    · rw [← h, Nat.ofDigitChars_ten_toDigits]

/-- An integer is written as the digits of its size, after a sign if it is negative. -/
theorem exists_decimal (v : Int64) :
    ∃ sign d ds, (toString v.toInt).toList = sign ++ d :: ds ∧ (sign = [] ∨ sign = ['-']) ∧
      (∀ c ∈ d :: ds, c.isDigit = true) ∧ Lexeme.integer sign (d :: ds) = .ok (.int v) := by
  rw [Int.toString_eq_repr, Int.repr_eq_if]
  split
  next hneg =>
    obtain ⟨d, ds, hn, hds, hvalue⟩ := exists_digits v.toInt.toNat
    rw [Nat.toList_repr, hn]
    refine ⟨[], d, ds, rfl, .inl rfl, hds, Lexeme.integer_eq_ok_iff.2 ?_⟩
    rw [hvalue]
    exact (Int.toNat_of_nonneg hneg).symm
  next hneg =>
    obtain ⟨d, ds, hn, hds, hvalue⟩ := exists_digits (-v.toInt).toNat
    rw [String.toList_append, Nat.toList_repr, hn]
    refine ⟨['-'], d, ds, rfl, .inr rfl, hds, Lexeme.integer_eq_ok_iff.2 ?_⟩
    rw [hvalue]
    show v.toInt = -((-v.toInt).toNat : Int)
    omega

end ConfigExpr
