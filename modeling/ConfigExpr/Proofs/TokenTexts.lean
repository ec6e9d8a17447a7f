import ConfigExpr.Proofs.SoleTokens
import ConfigExpr.Proofs.Strings

/-!
# Tokens from their texts

What is written for a token is read as that token. An escaped text between quotes is read as the
text, whatever follows it (`Cursor.yields_next_quoted_iff`). Names, integers, keywords and marks are
read from their own texts with single spaces between them (`Tokens.ofText_texts`). A key can be
written bare just where it is read as a name (`isBareKey_iff_tokens`).
-/

namespace ConfigExpr

/-! ## Escaped texts -/

namespace Cursor

variable {p : Nat} {rest : List Char}

/-- Quotes with nothing between them do not end before a third, which makes them those of a block. -/
theorem not_yields_next_empty {q : Nat} {t : Spanned} :
    ¬ (⟨p, '"' :: '"' :: '"' :: rest⟩ : Cursor).next.Yields t ⟨q, '"' :: rest⟩ := by
  intro h
  have hskip : (⟨p, '"' :: '"' :: '"' :: rest⟩ : Cursor).skipBlanks.rest =
      '"' :: '"' :: '"' :: rest := by
    rw [skipBlanks_of_not_blank rfl]
  obtain ⟨parts, hparts, -⟩ := (yields_next_block hskip).1 h
  exact absurd hparts.shorter (by simp)

/-- An escaped text between quotes is read as the text up to the closing quotes, and the reading goes
on with what follows them, unless the text is empty and the quotes around it are the first two of a
block. -/
theorem yields_next_quoted_iff (p : Nat) (text : String) (rest : List Char) :
    let written := '"' :: Text.escape text.toList ++ ['"']
    let parts := if text = "" then [] else [.text text]
    (⟨p, written ++ rest⟩ : Cursor).next.Yields ⟨.string parts, ⟨p, p + bytes written⟩⟩
      ⟨p + bytes written, rest⟩ ↔ text ≠ "" ∨ rest.head? ≠ some '"' := by
  intro written parts
  constructor
  · intro h
    by_contra hblock
    obtain ⟨rfl, hquotes⟩ : text = "" ∧ rest.head? = some '"' := by simpa using hblock
    obtain ⟨more, rfl⟩ := List.head?_eq_some_iff.1 hquotes
    exact not_yields_next_empty h
  · intro h
    have hquotes : Text.escape text.toList = [] → rest.head? ≠ some '"' := fun hnil =>
      h.resolve_left (not_not.2 (String.toList_eq_nil_iff.1 (escape_eq_nil_iff.1 hnil)))
    have hblock := ne_block (head?_escape text.toList) hquotes
    have hwritten : written ++ rest = '"' :: (Text.escape text.toList ++ '"' :: rest) := by
      simp [written]
    have hstop : p + 1 + bytes (Text.escape text.toList) + 1 = p + bytes written := by
      simp only [written, bytes_append, bytes_cons, bytes_nil,
        show ('"' : Char).utf8Size = 1 from rfl]
      omega
    have hparts : StringPart.ofText text.toList = parts := by
      simp [StringPart.ofText, parts]
    have hstring := yields_string_escape p (p + 1) text.toList rest
    rw [hstop, hparts] at hstring
    have hreads := ReadsToken.line hblock (readsString_of_yields hstring)
    rw [hwritten, yields_next_iff, skipBlanks_of_not_blank rfl]
    exact hreads

end Cursor

/-! ## Names -/

/-- A word that is no keyword. -/
def IsName (name : String) : Prop :=
  (∃ c cs, name.toList = c :: cs ∧ isWordStart c = true ∧ ∀ d ∈ cs, isWordRest d = true) ∧
    ∀ w : Keyword, name ≠ w.text

theorem isBareKey_iff_isName {name : String} : isBareKey name = true ↔ IsName name := by
  have hkeyword : Keyword.ofText? name = none ↔ ∀ w : Keyword, name ≠ w.text := by
    refine ⟨?_, fun h => Option.eq_none_iff_forall_ne_some.2 fun w hw => ?_⟩
    · rintro hnone w rfl
      cases hnone.symm.trans w.ofText?_text
    · exact h w (Keyword.eq_text_of_ofText? hw)
  unfold isBareKey IsName
  split
  next hname => simp [hname]
  next c cs hname => simp [hname, hkeyword, and_assoc]

/-- A key can be written bare just where its tokens are the name that it is, from its start to its
end, and the end mark. -/
theorem isBareKey_iff_tokens (key : String) :
    isBareKey key = true ↔
      Tokens.ofText key =
        ⟨[⟨.ident key, ⟨0, bytes key.toList⟩⟩, ⟨.eof, .point (bytes key.toList)⟩], none⟩ := by
  constructor
  · intro h
    have hnext := Cursor.yields_next_of_spelt (Token.spelt_ident_iff.2 ⟨h, rfl⟩)
      (Token.goesOn_nil _) 0
    rw [List.append_nil, Nat.zero_add] at hnext
    rw [Tokens.ofText, Cursor.start, Cursor.tokens_of_yields hnext,
      Cursor.tokens_of_finish (Cursor.next_eq_finish rfl)]
    rfl
  · intro h
    have hstring (parts : List StringPart) : Token.ident key ≠ .string parts := by
      rintro ⟨⟩
    obtain ⟨before, text, after, -, hspelt, -⟩ :=
      Cursor.exists_spelt_of_tokens hstring (congrArg (·.tokens.map (·.token)) h)
    exact (Token.spelt_ident_iff.1 hspelt).1

/-! ## Tokens between spaces -/

namespace Token

/-- A token that is written as its text: a name, an integer, a keyword or a mark. -/
def Textual : Token → Prop
  | .ident name => IsName name
  | .int _ | .keyword _ | .mark _ => True
  | _ => False

variable {t : Token}

theorem Textual.spelt (h : t.Textual) : t.Spelt t.text.toList := by
  cases t with
  | ident name => exact spelt_ident_iff.2 ⟨isBareKey_iff_isName.2 h, rfl⟩
  | int v => exact spelt_int v
  | keyword w => exact .keyword w
  | mark m => exact spelt_mark m
  | _ => exact h.elim

theorem Textual.isComment (h : t.Textual) : t.isComment = false := by
  cases t with
  | comment => exact h.elim
  | _ => rfl

end Token

theorem Spells.texts : ∀ {ts : List Token}, (∀ t ∈ ts, t.Textual) →
    Spells ([' '].intercalate (ts.map fun t => t.text.toList)) [] (· = ts)
  | [], _ => .nil rfl
  | [t], h => by
    have ht := h t List.mem_cons_self
    rw [List.map_singleton, List.intercalate_singleton, ← List.append_nil t.text.toList]
    exact .of_spelt ht.spelt ht.isComment t.goesOn_nil
  | t :: u :: us, h => by
    obtain ⟨ht, hothers⟩ := List.forall_mem_cons.1 h
    have hspace := (texts hothers).space nofun
    rw [List.map_cons] at hspace
    rw [List.map_cons, List.map_cons, List.intercalate_cons_cons, List.append_assoc,
      List.singleton_append]
    refine (Spells.of_spelt ht.spelt ht.isComment (Token.goesOn_blank ht.isComment rfl _)).append
      hspace ?_
    rintro _ _ rfl rfl
    rfl

/-- Names, integers, keywords and marks written with single spaces between them are read as the same
tokens and the end mark. -/
theorem Tokens.ofText_texts (ts : List Token) (h : ∀ t ∈ ts, t.Textual) :
    let read := ofText (" ".intercalate (ts.map Token.text))
    read.tokens.map (·.token) = ts ++ [.eof] ∧ read.error = none := by
  obtain ⟨m, us, hreads, rfl⟩ := Spells.texts h 0
  obtain ⟨herror, htokens, -⟩ := hreads.tokens rfl
  have htext : (" ".intercalate (us.map Token.text)).toList =
      [' '].intercalate (us.map fun t => t.text.toList) := by
    rw [String.toList_intercalate, List.map_map]
    rfl
  rw [ofText, htext]
  exact ⟨htokens, herror⟩

/-- Words that begin with keywords, signs before and after digits, and an equals sign before an
arrow. -/
theorem Tokens.ofText_texts_words :
    let ts : List Token := [.ident "lets-in", .mark .equals, .mark .arrow, .int Int64.minValue,
      .keyword .letWord, .ident "_true-", .mark .dot, .int 5]
    let text := "lets-in = => -9223372036854775808 let _true- . 5"
    (∀ t ∈ ts, t.Textual) ∧ (ofText text).tokens.map (·.token) = ts ++ [.eof] ∧
      (ofText text).error = none := by
  intro ts text
  have hname : IsName "lets-in" :=
    ⟨⟨'l', "ets-in".toList, rfl, rfl, List.all_eq_true.1 rfl⟩, by rintro (_ | _) <;> decide⟩
  have hname' : IsName "_true-" :=
    ⟨⟨'_', "true-".toList, rfl, rfl, List.all_eq_true.1 rfl⟩, by rintro (_ | _) <;> decide⟩
  have hts : ∀ t ∈ ts, t.Textual := by
    simp only [ts, List.forall_mem_cons]
    exact ⟨hname, trivial, trivial, trivial, trivial, hname', trivial, trivial, nofun⟩
  have htext : " ".intercalate (ts.map Token.text) = text := by decide +kernel
  have hread := ofText_texts ts hts
  rw [htext] at hread
  exact ⟨hts, hread⟩

end ConfigExpr
