import ConfigExpr.Proofs.Balanced
import ConfigExpr.Proofs.Reads

/-!
# Reading written strings

`Quoted cs rest p` says that what stands between double quotes from `cs` on is read as parts with
the property `p`. Escaped text is read as the text it was made from, and code in balanced braces as
the tokens it spells up to an end mark.
-/

namespace ConfigExpr

theorem match_eq_map_cons {d : Char} {r : Except LexError (List Char × StretchEnd)} :
    (match r with
      | .ok (text, stop) => .ok (d :: text, stop)
      | .error e => .error e) = r.map fun s => (d :: s.1, s.2) := by
  cases r <;> rfl

theorem lineStretch_escapeChar (opening p : Nat) (c : Char) (cs : List Char) :
    lineStretch opening p (Text.escapeChar c ++ cs) =
      (lineStretch opening (p + bytes (Text.escapeChar c)) cs).map fun s => (c :: s.1, s.2) := by
  unfold Text.escapeChar
  split
  case h_7 h₁ h₂ h₃ h₄ h₅ h₆ =>
    rw [List.singleton_append, lineStretch]
    · exact match_eq_map_cons
    · exact h₁
    · exact h₃
    · exact fun h _ => h₂ h
    · exact fun _ _ h _ => h₂ h
    · exact fun _ h _ => h₆ h
  all_goals
    rw [List.cons_append, List.singleton_append, lineStretch]
    exact match_eq_map_cons

/-- Escaped text is put before whatever stretch follows it. -/
theorem lineStretch_escape (opening p : Nat) (text cs : List Char) :
    lineStretch opening p (Text.escape text ++ cs) =
      (lineStretch opening (p + bytes (Text.escape text)) cs).map fun s => (text ++ s.1, s.2) := by
  induction text generalizing p with
  | nil => cases h : lineStretch opening p cs <;> simp [Text.escape, h, Except.map]
  | cons c text ih =>
    rw [Text.escape, List.flatMap_cons, List.append_assoc, ← Text.escape,
      lineStretch_escapeChar, ih, bytes_append, Nat.add_assoc]
    cases lineStretch opening (p + (bytes (Text.escapeChar c) + bytes (Text.escape text))) cs <;> rfl

/-- Escaped text is read as the text, up to the quotes after it. -/
theorem Cursor.yields_string_escape (opening p : Nat) (text rest : List Char) :
    (string .line opening ⟨p, Text.escape text ++ '"' :: rest⟩).Yields (StringPart.ofText text)
      ⟨p + bytes (Text.escape text) + 1, rest⟩ := by
  have hstretch := lineStretch_escape opening p text ('"' :: rest)
  have hstop (m : Nat) : lineStretch opening m ('"' :: rest) = .ok ([], .closed ⟨m + 1, rest⟩) := by
    rw [lineStretch]
  rw [hstop, Except.map, List.append_nil] at hstretch
  exact yields_string.2 ⟨text, _, hstretch, rfl, rfl⟩

theorem head?_escape (text : List Char) : (Text.escape text).head? ≠ some '"' := by
  cases text with
  | nil => nofun
  | cons c text =>
    rw [Text.escape, List.flatMap_cons]
    unfold Text.escapeChar
    split <;> simp_all

theorem escape_eq_nil_iff {text : List Char} : Text.escape text = [] ↔ text = [] := by
  have hne (c : Char) : Text.escapeChar c ≠ [] := by
    unfold Text.escapeChar
    split <;> exact List.cons_ne_nil _ _
  cases text with
  | nil => simp [Text.escape]
  | cons c text => simp [Text.escape, hne]

/-- The quotes of a string that begins with something else, or is empty and not followed by quotes,
do not open a block. -/
theorem ne_block {cs rest : List Char} (hcs : cs.head? ≠ some '"')
    (hrest : cs = [] → rest.head? ≠ some '"') : ∀ ds, cs ++ '"' :: rest ≠ '"' :: '"' :: ds := by
  rintro ds h
  cases cs with
  | nil =>
    simp only [List.nil_append, List.cons.injEq, true_and] at h
    exact hrest rfl (by simp [h])
  | cons c cs =>
    simp only [List.cons_append, List.cons.injEq] at h
    exact hcs (by simp [h.1])

/-- Tokens that close none of the open braces belong to the code they stand in. -/
theorem Cursor.yields_code_of_reads {dollar : Nat} {c after mid : Cursor} {us : List Token}
    {tokens : List Spanned} (h : c.Reads us mid) :
    ∀ {depth inner : Nat}, us.foldlM Token.depthAfter? depth = some inner →
      (code dollar inner mid).Yields tokens after →
      ∃ read, read.map (·.token) = us ∧ (code dollar depth c).Yields (read ++ tokens) after := by
  induction h with
  | nil c =>
    rintro depth _ ⟨⟩ htokens
    exact ⟨[], rfl, htokens⟩
  | @cons c mid _ t us hnext hne _ ih =>
    intro depth inner hdepth htokens
    rw [List.foldlM_cons] at hdepth
    obtain ⟨within, ht, hus⟩ := Option.bind_eq_some_iff.1 hdepth
    obtain ⟨read, hread, hcode⟩ := ih hus htokens
    refine ⟨t :: read, by rw [List.map_cons, hread], yields_code.2 ⟨t, mid, hnext, ?_⟩⟩
    rw [ht]
    refine ⟨read ++ tokens, hcode, ?_⟩
    rw [if_neg, List.cons_append]
    intro hcomment
    unfold Token.isComment at hcomment
    split at hcomment
    · exact hne ‹_›
    · cases hcomment

/-- Balanced code ends at the brace after it. -/
theorem exists_yields_code {cs rest : List Char} {p : List Token → Prop}
    (h : Spells cs ('\x7d' :: rest) p) (hp : ∀ us, p us → Balanced us) (dollar n : Nat) :
    ∃ m us tokens, (Cursor.code dollar 0 ⟨n, cs⟩).Yields tokens ⟨m, rest⟩ ∧
      tokens.map (·.token) = us ++ [.eof] ∧ p us := by
  obtain ⟨m, us, hreads, hus⟩ := h n
  have hskip : (⟨m, '\x7d' :: rest⟩ : Cursor).skipBlanks.rest = '\x7d' :: rest := by
    rw [Cursor.skipBlanks_of_not_blank rfl]
  have hclose := (Cursor.yields_next_lexeme hskip (by decide)).2
    ⟨.mark .closeBrace, rfl, rfl, rfl⟩
  have hend : ∃ tokens after, (Cursor.code dollar 0 ⟨m, '\x7d' :: rest⟩).Yields tokens after ∧
      tokens.map (·.token) = [.eof] ∧ after.rest = rest :=
    ⟨_, _, Cursor.yields_code.2 ⟨_, _, hclose, rfl, rfl⟩, rfl, rfl⟩
  obtain ⟨tokens, ⟨l, _⟩, htokens, heof, rfl⟩ := hend
  obtain ⟨read, hread, hcode⟩ := Cursor.yields_code_of_reads hreads (hp us hus 0) htokens
  exact ⟨l, us, read ++ tokens, hcode, by rw [List.map_append, hread, heof], hus⟩

/-- What stands between double quotes from `cs` on is read as parts with the property `p`, and
`rest` is left after the quotes. -/
def Quoted (cs rest : List Char) (p : List StringPart → Prop) : Prop :=
  ∀ opening n, ∃ m parts, (Cursor.string .line opening ⟨n, cs⟩).Yields parts ⟨m, rest⟩ ∧ p parts

namespace Quoted

variable {cs mid rest : List Char} {p : List Token → Prop} {q r : List StringPart → Prop}

theorem mono (h : Quoted cs rest q) (hqr : ∀ parts, q parts → r parts) : Quoted cs rest r := by
  intro opening n
  obtain ⟨m, parts, hparts, hq⟩ := h opening n
  exact ⟨m, parts, hparts, hqr parts hq⟩

theorem closed (text rest : List Char) :
    Quoted (Text.escape text ++ '"' :: rest) rest (· = StringPart.ofText text) :=
  fun opening n => ⟨_, _, Cursor.yields_string_escape opening n text rest, rfl⟩

theorem code (text : List Char) (hcs : Spells cs ('\x7d' :: mid) p)
    (hp : ∀ us, p us → Balanced us) (hmid : Quoted mid rest q)
    (hr : ∀ us tokens others, tokens.map (·.token) = us ++ [.eof] → p us → q others →
      r (StringPart.ofText text ++ .code tokens :: others)) :
    Quoted (Text.escape text ++ '$' :: '\x7b' :: cs) rest r := by
  intro opening n
  have hstretch := lineStretch_escape opening n text ('$' :: '\x7b' :: cs)
  generalize n + bytes (Text.escape text) = m at hstretch
  have hstop : lineStretch opening m ('$' :: '\x7b' :: cs) = .ok ([], .code m ⟨m + 2, cs⟩) := by
    rw [lineStretch]
  rw [hstop] at hstretch
  obtain ⟨l, us, tokens, hcode, htokens, hus⟩ := exists_yields_code hcs hp m (m + 2)
  obtain ⟨k, others, hothers, hq⟩ := hmid opening l
  refine ⟨k, _, Cursor.yields_string.2 ?_, hr us tokens others htokens hus hq⟩
  exact ⟨text, .code m ⟨m + 2, cs⟩, by simpa [Except.map, stretch] using hstretch, tokens, ⟨l, mid⟩,
    hcode, others, hothers, rfl⟩

end Quoted

/-- A string is read up to its closing quotes, unless its opening quotes are those of a block. -/
theorem Spells.string {cs rest : List Char} {p : List StringPart → Prop}
    (hcs : ∀ ds, cs ≠ '"' :: '"' :: ds) (h : Quoted cs rest p) :
    Spells ('"' :: cs) rest fun us => ∃ parts, us = [.string parts] ∧ p parts := by
  intro n
  have hskip : (⟨n, '"' :: cs⟩ : Cursor).skipBlanks = ⟨n, '"' :: cs⟩ :=
    Cursor.skipBlanks_of_not_blank rfl
  obtain ⟨m, parts, hparts, hp⟩ := h n (n + 1)
  have hnext := (Cursor.yields_next_line (c := ⟨n, '"' :: cs⟩) (by rw [hskip]) hcs).2
    ⟨parts, by rw [hskip]; exact hparts, rfl⟩
  exact ⟨m, [.string parts], .cons hnext nofun (.nil _), parts, rfl, hp⟩

end ConfigExpr
