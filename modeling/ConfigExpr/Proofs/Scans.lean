import ConfigExpr.Token.Lexer

/-!
# One step of the lexer

`Step.Yields` and `Scan.Yields` say that reading succeeds, with what was read and the cursor after
it, and leave out the bound that the result carries. For each function of the lexer one lemma says
when it does, in terms of the functions it calls.
-/

namespace ConfigExpr

def Step.Yields {n : Nat} (s : Step n) (t : Spanned) (next : Cursor) : Prop :=
  ∃ shorter, s = .token t next shorter

def Scan.Yields {α : Type} {n : Nat} (s : Scan α n) (value : α) (next : Cursor) : Prop :=
  ∃ shorter, s = .ok value next shorter

theorem Step.Yields.shorter {n : Nat} {s : Step n} {t : Spanned} {next : Cursor}
    (h : s.Yields t next) : next.rest.length < n :=
  h.1

theorem Scan.Yields.shorter {α : Type} {n : Nat} {s : Scan α n} {value : α} {next : Cursor}
    (h : s.Yields value next) : next.rest.length < n :=
  h.1

section

variable {n : Nat} {t u : Spanned} {next after : Cursor}

@[simp] theorem Step.yields_token {shorter : next.rest.length < n} :
    (Step.token t next shorter).Yields u after ↔ t = u ∧ next = after := by
  constructor
  · rintro ⟨_, h⟩
    cases h
    exact ⟨rfl, rfl⟩
  · rintro ⟨rfl, rfl⟩
    exact ⟨shorter, rfl⟩

@[simp] theorem Step.yields_finish {p : Nat} : ¬ (Step.finish p : Step n).Yields u after := by
  rintro ⟨_, h⟩
  cases h

@[simp] theorem Step.yields_error {e : LexError} :
    ¬ (Step.error e : Step n).Yields u after := by
  rintro ⟨_, h⟩
  cases h

variable {α : Type} {value w : α}

@[simp] theorem Scan.yields_ok {shorter : next.rest.length < n} :
    (Scan.ok value next shorter).Yields w after ↔ value = w ∧ next = after := by
  constructor
  · rintro ⟨_, h⟩
    cases h
    exact ⟨rfl, rfl⟩
  · rintro ⟨rfl, rfl⟩
    exact ⟨shorter, rfl⟩

@[simp] theorem Scan.yields_error {e : LexError} :
    ¬ (Scan.error e : Scan α n).Yields w after := by
  rintro ⟨_, h⟩
  cases h

end

/-- The integer with a sign and a size. -/
def signed (sign : List Char) (size : Nat) : Int :=
  if sign.isEmpty then size else -size

theorem ofInt_eq_iff {z : Int} {v : Int64} (hle : -Lexeme.int64Bound ≤ z)
    (hlt : z < Lexeme.int64Bound) : Int64.ofInt z = v ↔ v.toInt = z := by
  unfold Lexeme.int64Bound at hle hlt
  constructor
  · rintro rfl
    exact Int64.toInt_ofInt_of_le (by omega) (by omega)
  · rintro rfl
    exact Int64.ofInt_toInt v

/-- Digits are read as the integer they are the size of, if that has 64 bits. -/
theorem Lexeme.integer_eq_ok_iff {sign digits : List Char} {v : Int64} :
    integer sign digits = .ok (.int v) ↔ v.toInt = signed sign (Nat.ofDigitChars 10 digits 0) := by
  have hlt := v.toInt_lt
  have hle := v.le_toInt
  unfold integer signed
  dsimp only
  generalize Nat.ofDigitChars 10 digits 0 = size
  by_cases hsign : sign.isEmpty = true
  · rw [if_pos hsign, if_pos hsign]
    by_cases hsize : size < int64Bound
    · rw [if_pos hsize, Except.ok.injEq, Token.int.injEq, ofInt_eq_iff (by omega) (by omega)]
    · rw [if_neg hsize]
      unfold int64Bound at hsize
      exact iff_of_false nofun (by omega)
  · rw [if_neg hsign, if_neg hsign]
    by_cases hsize : size ≤ int64Bound
    · have hbound : 0 < int64Bound := by decide
      rw [if_pos hsize, Except.ok.injEq, Token.int.injEq, ofInt_eq_iff (by omega) (by omega)]
    · rw [if_neg hsize]
      unfold int64Bound at hsize
      exact iff_of_false nofun (by omega)

namespace Lexeme

variable (sign : List Char) (d : Char) {cs more : List Char} {f : Char}

/-- Digits without a point and a digit after them are an integer. -/
theorem number_integer
    (h : ∀ f more, cs.dropWhile Char.isDigit = '.' :: f :: more → f.isDigit = false) :
    (number sign d cs).reading = integer sign (d :: cs.takeWhile Char.isDigit) ∧
      (number sign d cs).rest = cs.dropWhile Char.isDigit := by
  unfold number
  dsimp only
  split
  · next f more hm => simp [h f more hm, hm]
  · exact ⟨rfl, rfl⟩

theorem number_float (h : cs.dropWhile Char.isDigit = '.' :: f :: more)
    (hf : f.isDigit = true) :
    (number sign d cs).reading =
        float (sign ++ d :: cs.takeWhile Char.isDigit ++ '.' :: f :: more.takeWhile Char.isDigit) ∧
      (number sign d cs).rest = more.dropWhile Char.isDigit := by
  unfold number
  dsimp only
  split
  · next f' more' hm =>
    obtain ⟨rfl, rfl⟩ : f = f' ∧ more = more' := by simpa [h] using hm
    simp [hf]
  · next hne => exact absurd h (hne f more)

end Lexeme

namespace Cursor

variable {c after : Cursor} {t : Spanned}

theorem not_yields_next_nil (h : c.skipBlanks.rest = []) : ¬ c.next.Yields t after := by
  rw [Cursor.next]
  split
  · exact Step.yields_finish
  · next hr => simp [h] at hr
  · next hr => simp [h] at hr
  · next hr => simp [h] at hr

theorem yields_next_block {cs : List Char} (h : c.skipBlanks.rest = '"' :: '"' :: '"' :: cs) :
    c.next.Yields t after ↔
      ∃ parts, (string .block c.skipBlanks.position
        ⟨c.skipBlanks.position + 3, cs⟩).Yields parts after ∧
        ⟨.string parts, ⟨c.skipBlanks.position, after.position⟩⟩ = t := by
  rw [Cursor.next]
  split
  · next hr => simp [h] at hr
  · next cs' hr =>
    obtain rfl : cs = cs' := by simpa [h] using hr
    cases hs : string .block c.skipBlanks.position ⟨c.skipBlanks.position + 3, cs⟩ with
    | error e => simp
    | ok parts next shorter =>
      simp only [Step.yields_token, Scan.yields_ok]
      grind
  · next hne hr =>
    simp only [h, List.cons.injEq, true_and] at hr
    exact absurd hr.symm (hne cs)
  · next hne hr =>
    simp only [h, List.cons.injEq] at hr
    exact absurd hr.1.symm ‹_›

theorem yields_next_line {cs : List Char} (h : c.skipBlanks.rest = '"' :: cs)
    (hcs : ∀ ds, cs ≠ '"' :: '"' :: ds) :
    c.next.Yields t after ↔
      ∃ parts, (string .line c.skipBlanks.position
        ⟨c.skipBlanks.position + 1, cs⟩).Yields parts after ∧
        ⟨.string parts, ⟨c.skipBlanks.position, after.position⟩⟩ = t := by
  rw [Cursor.next]
  split
  · next hr => simp [h] at hr
  · next ds hr =>
    simp only [h, List.cons.injEq, true_and] at hr
    exact absurd hr (hcs ds)
  · next cs' _ hr =>
    obtain rfl : cs = cs' := by simpa [h] using hr
    cases hs : string .line c.skipBlanks.position ⟨c.skipBlanks.position + 1, cs⟩ with
    | error e => simp
    | ok parts next shorter =>
      simp only [Step.yields_token, Scan.yields_ok]
      grind
  · next hne hr =>
    simp only [h, List.cons.injEq] at hr
    exact absurd hr.1.symm ‹_›

theorem yields_next_lexeme {ch : Char} {cs : List Char} (h : c.skipBlanks.rest = ch :: cs)
    (hch : ch ≠ '"') :
    c.next.Yields t after ↔
      ∃ token, (lexeme ch cs).reading = .ok token ∧
        ⟨token, ⟨c.skipBlanks.position, c.skipBlanks.position + bytes (lexeme ch cs).text⟩⟩ = t ∧
        ⟨c.skipBlanks.position + bytes (lexeme ch cs).text, (lexeme ch cs).rest⟩ = after := by
  rw [Cursor.next]
  split
  · next hr => simp [h] at hr
  · next hr =>
    simp only [h, List.cons.injEq] at hr
    exact absurd hr.1 hch
  · next hr =>
    simp only [h, List.cons.injEq] at hr
    exact absurd hr.1 hch
  · next hr =>
    obtain ⟨rfl, rfl⟩ : ch = _ ∧ cs = _ := by simpa [h] using hr
    cases hl : (lexeme ch cs).reading <;> simp [hl]

theorem yields_string {quotes : Quotes} {opening : Nat} {parts : List StringPart} :
    (string quotes opening c).Yields parts after ↔
      ∃ text stop, stretch quotes opening c = .ok (text, stop) ∧
        match stop with
        | .closed next => StringPart.ofText text = parts ∧ next = after
        | .code dollar inside =>
          ∃ tokens mid, (code dollar 0 inside).Yields tokens mid ∧
          ∃ others, (string quotes opening mid).Yields others after ∧
            StringPart.ofText text ++ .code tokens :: others = parts := by
  constructor
  · intro h
    rw [Cursor.string] at h
    split at h
    · exact absurd h Scan.yields_error
    · next text next hs => exact ⟨text, .closed next, hs, Scan.yields_ok.1 h⟩
    next text dollar inside hs =>
    split at h
    · exact absurd h Scan.yields_error
    next tokens mid hmid ht =>
    split at h
    · exact absurd h Scan.yields_error
    next others next hnext ho =>
    obtain ⟨rfl, rfl⟩ := Scan.yields_ok.1 h
    exact ⟨text, .code dollar inside, hs, tokens, mid, ⟨_, ht⟩, others, ⟨_, ho⟩, rfl⟩
  · rintro ⟨text, stop, hs, h⟩
    rw [Cursor.string]
    split
    · next hs' => cases hs.symm.trans hs'
    · next hs' =>
      cases hs.symm.trans hs'
      exact Scan.yields_ok.2 h
    · next hs' =>
      cases hs.symm.trans hs'
      obtain ⟨tokens, mid, ⟨_, ht⟩, others, ⟨_, ho⟩, rfl⟩ := h
      simp only [ht, ho]
      exact ⟨_, rfl⟩

theorem yields_code {dollar depth : Nat} {tokens : List Spanned} :
    (code dollar depth c).Yields tokens after ↔
      ∃ t mid, c.next.Yields t mid ∧
        match t.token.depthAfter? depth with
        | none => [⟨.eof, .point t.span.start⟩] = tokens ∧ mid = after
        | some inner =>
          ∃ others, (code dollar inner mid).Yields others after ∧
            (if t.token.isComment then others else t :: others) = tokens := by
  rw [Cursor.code]
  constructor
  · intro h
    split at h
    · exact absurd h Scan.yields_error
    · exact absurd h Scan.yields_error
    next t mid hmid hn =>
    refine ⟨t, mid, ⟨_, hn⟩, ?_⟩
    cases hd : t.token.depthAfter? depth with
    | none =>
      simp only [hd] at h
      exact Scan.yields_ok.1 h
    | some inner =>
      simp only [hd] at h
      split at h
      · exact absurd h Scan.yields_error
      next others next hnext ho =>
      obtain ⟨rfl, rfl⟩ := Scan.yields_ok.1 h
      exact ⟨others, ⟨_, ho⟩, rfl⟩
  · rintro ⟨t, mid, ⟨hmid, hn⟩, h⟩
    simp only [hn]
    cases hd : t.token.depthAfter? depth with
    | none => simpa only [hd, Scan.yields_ok] using h
    | some inner =>
      rw [hd] at h
      obtain ⟨others, ⟨_, ho⟩, rfl⟩ := h
      simp [ho]

theorem tokens_of_finish {p : Nat} (h : c.next = .finish p) :
    c.tokens = ⟨[⟨.eof, .point p⟩], none⟩ := by
  rw [tokens]
  simp only [h]

theorem tokens_of_error {e : LexError} (h : c.next = .error e) : c.tokens = ⟨[], some e⟩ := by
  rw [tokens]
  simp only [h]

theorem tokens_of_yields (h : c.next.Yields t after) :
    c.tokens = ⟨t :: after.tokens.tokens, after.tokens.error⟩ := by
  obtain ⟨_, hn⟩ := h
  rw [tokens]
  simp only [hn]

end Cursor

end ConfigExpr
