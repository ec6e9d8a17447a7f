import ConfigExpr.Proofs.Reads
import Mathlib.Data.List.TakeWhile
import Mathlib.Tactic.Conv
import Mathlib.Tactic.SplitIfs

/-!
# Lexemes and what follows them

A lexeme is the longest text that can be read as its token. `Token.Spelt` gives the texts of the
tokens that are no strings, and `Token.goesOn` says whether a text that follows one belongs to it
still. The two decide what is read (`spelt_lexeme`, `lexeme_of_spelt`), so a text of a token spells it
before whatever does not belong to it (`Spells.of_spelt`).
-/

namespace ConfigExpr

namespace Token

/-- The token is read from this text, where nothing after it belongs to it. -/
inductive Spelt : Token → List Char → Prop where
  | comment {us : List Char} : (∀ u ∈ us, u ≠ '\n') → Spelt .comment ('#' :: us)
  | word {c : Char} {us : List Char} : isWordStart c = true → (∀ u ∈ us, isWordRest u = true) →
    Spelt (.ofWord (c :: us)) (c :: us)
  | int {sign us : List Char} {d : Char} {v : Int64} : (sign = [] ∨ sign = ['-']) →
    (∀ u ∈ d :: us, u.isDigit = true) → Lexeme.integer sign (d :: us) = .ok (.int v) →
    Spelt (.int v) (sign ++ d :: us)
  | float {sign us vs : List Char} {d f : Char} : (sign = [] ∨ sign = ['-']) →
    (∀ u ∈ d :: us, u.isDigit = true) → (∀ u ∈ f :: vs, u.isDigit = true) →
    Spelt (.float (.ofDigits (!sign.isEmpty) (d :: us) (f :: vs)))
      (sign ++ d :: us ++ '.' :: f :: vs)
  | arrow : Spelt (.mark .arrow) ['=', '>']
  | mark {c : Char} {m : Mark} : Mark.ofChar? c = some m → Spelt (.mark m) [c]

/-- Whether a text that follows a token belongs to it still. After an empty string quotes do: they
make its own the quotes of a block. -/
def goesOn : Token → List Char → Bool
  | .comment, c :: _ => c != '\n'
  | .ident _, c :: _ | .keyword _, c :: _ => isWordRest c
  | .int _, c :: cs => c.isDigit || (c == '.' && cs.head?.any Char.isDigit)
  | .float _, c :: _ => c.isDigit
  | .mark .equals, c :: _ => c == '>'
  | .string parts, c :: _ => parts.isEmpty && c == '"'
  | _, _ => false

@[simp] theorem goesOn_nil (t : Token) : t.goesOn [] = false := by
  unfold goesOn
  split <;> simp_all

theorem goesOn_ofWord (word rest : List Char) :
    (ofWord word).goesOn rest = rest.head?.any isWordRest := by
  unfold ofWord
  split <;> cases rest <;> rfl

/-- A blank character belongs to no token but a comment. -/
theorem goesOn_blank {t : Token} (ht : t.isComment = false) {c : Char}
    (hc : Text.isBlank c = true) (us : List Char) : t.goesOn (c :: us) = false := by
  have hne : ∀ d, Text.isBlank d = false → (c == d) = false := by
    intro d hd
    rw [beq_eq_false_iff_ne]
    rintro rfl
    cases hd.symm.trans hc
  have hword : isWordRest c = false :=
    Bool.eq_false_iff.2 fun h => by cases (isBlank_of_isWordRest h).symm.trans hc
  have hdigit : c.isDigit = false :=
    Bool.eq_false_iff.2 fun h => by cases (isWordRest_of_isDigit h).symm.trans hword
  cases t with
  | comment => cases ht
  | ident | keyword => exact hword
  | int => simp [goesOn, hdigit, hne '.' rfl]
  | float => exact hdigit
  | string parts => simp [goesOn, hne '"' rfl]
  | mark m =>
    cases m with
    | equals => exact hne '>' rfl
    | _ => rfl
  | eof => rfl

end Token

namespace Lexeme

/-- The text of a lexeme is what stands before the rest. -/
theorem text_eq {input text : List Char} (l : Lexeme input) (h : text ++ l.rest = input) :
    l.text = text :=
  List.append_cancel_right (l.text_append_rest.trans h.symm)

theorem exists_int_of_integer {sign digits : List Char} {t : Token}
    (h : integer sign digits = .ok t) : ∃ v, t = .int v := by
  unfold integer at h
  dsimp only at h
  split_ifs at h <;> cases h <;> exact ⟨_, rfl⟩

end Lexeme

/-- Digits go on with a digit, and with a point that has one after it. -/
theorem goesOn_int_iff {v : Int64} {rest : List Char} : (Token.int v).goesOn rest = false ↔
    (∀ c ∈ rest.head?, c.isDigit = false) ∧
      ∀ f more, rest = '.' :: f :: more → f.isDigit = false := by
  rcases rest with _ | ⟨c, _ | ⟨f, more⟩⟩
  · simp
  · simp [Token.goesOn]
  · by_cases hc : c = '.' <;> simp [Token.goesOn, hc]

theorem goesOn_float_iff {v : Binary64} {rest : List Char} :
    (Token.float v).goesOn rest = false ↔ ∀ c ∈ rest.head?, c.isDigit = false := by
  cases rest <;> simp [Token.goesOn]

theorem spelt_number {sign : List Char} {d : Char} {cs : List Char} {t : Token}
    (hsign : sign = [] ∨ sign = ['-']) (hd : d.isDigit = true)
    (h : (Lexeme.number sign d cs).reading = .ok t) :
    t.Spelt (Lexeme.number sign d cs).text ∧ t.goesOn (Lexeme.number sign d cs).rest = false := by
  have hdigits := forall_mem_cons_takeWhile hd cs
  by_cases hf : ∃ f more, cs.dropWhile Char.isDigit = '.' :: f :: more ∧ f.isDigit = true
  · obtain ⟨f, more, hm, hf⟩ := hf
    obtain ⟨hreading, hrest⟩ := Lexeme.number_float sign d hm hf
    have hfraction := forall_mem_cons_takeWhile hf more
    rw [hreading, Lexeme.float_digits hsign (List.cons_ne_nil _ _)
      (List.forall_mem_append.2 ⟨hdigits, hfraction⟩)] at h
    cases h
    have htext : (Lexeme.number sign d cs).text =
        sign ++ d :: cs.takeWhile Char.isDigit ++ '.' :: f :: more.takeWhile Char.isDigit := by
      refine Lexeme.text_eq _ ?_
      rw [hrest]
      conv_rhs => rw [← cs.takeWhile_append_dropWhile (p := Char.isDigit), hm]
      simp
    rw [htext, hrest]
    exact ⟨.float hsign hdigits hfraction,
      goesOn_float_iff.2 head?_dropWhile_eq_false⟩
  · have hi : ∀ f more, cs.dropWhile Char.isDigit = '.' :: f :: more → f.isDigit = false :=
      fun f more hm => Bool.eq_false_iff.2 fun h' => hf ⟨f, more, hm, h'⟩
    obtain ⟨hreading, hrest⟩ := Lexeme.number_integer sign d hi
    rw [hreading] at h
    obtain ⟨v, rfl⟩ := Lexeme.exists_int_of_integer h
    have htext : (Lexeme.number sign d cs).text = sign ++ d :: cs.takeWhile Char.isDigit := by
      refine Lexeme.text_eq _ ?_
      rw [hrest]
      simp
    rw [htext, hrest]
    exact ⟨.int hsign hdigits h, goesOn_int_iff.2 ⟨head?_dropWhile_eq_false, hi⟩⟩

/-- What is read is a text of its token, and nothing after it belongs to it. -/
theorem spelt_lexeme {ch : Char} {cs : List Char} {t : Token}
    (h : (lexeme ch cs).reading = .ok t) :
    t.Spelt (lexeme ch cs).text ∧ t.goesOn (lexeme ch cs).rest = false := by
  unfold lexeme at h ⊢
  split_ifs at h ⊢ with h₁ h₂ h₃
  · cases h
    subst h₁
    refine ⟨.comment fun u hu => by simpa using List.mem_takeWhile_imp hu, ?_⟩
    simp only [Lexeme.comment, Lexeme.run]
    cases hr : cs.dropWhile (· != '\n') with
    | nil => rfl
    | cons c more => exact head?_dropWhile_eq_false c (by rw [hr]; rfl)
  · cases h
    refine ⟨.word h₂ fun u hu => List.mem_takeWhile_imp hu, ?_⟩
    simp only [Lexeme.word, Lexeme.run, Token.goesOn_ofWord]
    cases hr : cs.dropWhile isWordRest with
    | nil => rfl
    | cons c more => exact head?_dropWhile_eq_false c (by rw [hr]; rfl)
  · exact spelt_number (.inl rfl) h₃ h
  · split at h
    · split_ifs at h ⊢ with hd
      · exact spelt_number (.inr rfl) hd h
      · cases h
    · cases h
      exact ⟨.arrow, rfl⟩
    next _ _ _ harrow =>
      split at h
      next m hm =>
        cases h
        refine ⟨.mark hm, ?_⟩
        simp only [Lexeme.single]
        rcases cs with _ | ⟨d, ds⟩
        · exact Token.goesOn_nil _
        · unfold Mark.ofChar? at hm
          split at hm <;> cases hm <;> try rfl
          exact beq_false_of_ne fun hd => harrow ds rfl (by rw [hd])
      · cases h

theorem goesOn_eq_false_of_ofWord {word rest : List Char}
    (h : (Token.ofWord word).goesOn rest = false) : ∀ c ∈ rest.head?, isWordRest c = false := by
  rw [Token.goesOn_ofWord] at h
  intro c hc
  rwa [hc] at h

theorem lexeme_of_number {sign cs us rest : List Char} {d ch : Char} {t : Token}
    (hsign : sign = [] ∨ sign = ['-']) (hd : d.isDigit = true)
    (hreading : (Lexeme.number sign d cs).reading = .ok t)
    (hrest : (Lexeme.number sign d cs).rest = rest) (hsplit : ch :: us = sign ++ d :: cs) :
    (lexeme ch us).reading = .ok t ∧ (lexeme ch us).rest = rest := by
  obtain ⟨c, more, hcons, -, -, hread, hleft⟩ := lexeme_number hsign hd cs
  cases hsplit.trans hcons
  exact ⟨hread.trans hreading, hleft.trans hrest⟩

theorem lexeme_equals {d : Char} (h : d ≠ '>') (rest : List Char) :
    (lexeme '=' (d :: rest)).reading = .ok (.mark .equals) ∧
      (lexeme '=' (d :: rest)).rest = d :: rest := by
  unfold lexeme
  rw [if_neg (by decide), if_neg (by decide), if_neg (by decide)]
  simp [h, Mark.ofChar?, Lexeme.single]

/-- A text of a token is read as the token before anything that does not belong to it. -/
theorem lexeme_of_spelt {ch : Char} {us rest : List Char} {t : Token} (h : t.Spelt (ch :: us))
    (hrest : t.goesOn rest = false) :
    (lexeme ch (us ++ rest)).reading = .ok t ∧ (lexeme ch (us ++ rest)).rest = rest := by
  generalize htext : ch :: us = text at h
  cases h with
  | comment hus =>
    cases htext
    have hhead : ∀ c ∈ rest.head?, (c != '\n') = false := by
      intro c hc
      rcases rest with _ | ⟨d, rest⟩ <;> cases hc
      exact hrest
    obtain ⟨-, hdrop⟩ := takeWhile_dropWhile_append
      (fun c hc => bne_iff_ne.2 (hus c hc)) hhead
    exact ⟨rfl, hdrop⟩
  | word hc hus =>
    cases htext
    obtain ⟨htake, hdrop⟩ := takeWhile_dropWhile_append hus (goesOn_eq_false_of_ofWord hrest)
    obtain ⟨hreading, hleft⟩ := lexeme_word hc (us ++ rest)
    rw [htake] at hreading
    exact ⟨hreading, hleft.trans hdrop⟩
  | @int sign ds d v hsign hds hinteger =>
    obtain ⟨hhead, hpoint⟩ := goesOn_int_iff.1 hrest
    obtain ⟨htake, hdrop⟩ := takeWhile_dropWhile_append (List.forall_mem_cons.1 hds).2 hhead
    obtain ⟨hreading, hleft⟩ := Lexeme.number_integer sign d (hdrop.symm ▸ hpoint)
    rw [htake] at hreading
    refine lexeme_of_number hsign (hds d List.mem_cons_self) (hreading.trans hinteger)
      (hleft.trans hdrop) ?_
    rw [← List.cons_append, htext]
    simp
  | @float sign ds fs d f hsign hds hfs =>
    have hpoint : ∀ c ∈ ('.' :: f :: (fs ++ rest)).head?, c.isDigit = false := by
      rintro _ ⟨⟩
      rfl
    obtain ⟨hwhole, htail⟩ := takeWhile_dropWhile_append (List.forall_mem_cons.1 hds).2 hpoint
    obtain ⟨hfraction, hdrop⟩ := takeWhile_dropWhile_append (List.forall_mem_cons.1 hfs).2
      (goesOn_float_iff.1 hrest)
    obtain ⟨hreading, hleft⟩ := Lexeme.number_float sign d htail (hfs f List.mem_cons_self)
    rw [hwhole, hfraction, Lexeme.float_digits hsign (List.cons_ne_nil _ _)
      (List.forall_mem_append.2 ⟨hds, hfs⟩)] at hreading
    refine lexeme_of_number hsign (hds d List.mem_cons_self) hreading (hleft.trans hdrop) ?_
    rw [← List.cons_append, htext]
    simp
  | arrow =>
    cases htext
    exact ⟨rfl, rfl⟩
  | @mark c m hm =>
    cases htext
    by_cases hequals : ch = '='
    · subst hequals
      cases hm
      rcases rest with _ | ⟨d, rest⟩
      · exact ⟨rfl, rfl⟩
      · exact lexeme_equals (ne_of_beq_false hrest) rest
    · obtain ⟨-, -, hreading, hleft⟩ := lexeme_mark hm hequals rest
      exact ⟨hreading, hleft⟩

theorem Token.Spelt.ne_nil {t : Token} {text : List Char} (h : t.Spelt text) : text ≠ [] := by
  cases h <;> simp

/-- A text of a token that is no comment has no blank characters and no quotes in it. -/
theorem Token.Spelt.forall_mem {t : Token} {text : List Char} (h : t.Spelt text)
    (ht : t.isComment = false) : ∀ c ∈ text, Text.isBlank c = false ∧ c ≠ '"' := by
  have hword : ∀ c, isWordRest c = true → Text.isBlank c = false ∧ c ≠ '"' := fun c hc =>
    ⟨isBlank_of_isWordRest hc, by rintro rfl; cases hc⟩
  have hdigits : ∀ cs : List Char, (∀ c ∈ cs, c.isDigit = true) →
      ∀ c ∈ cs, Text.isBlank c = false ∧ c ≠ '"' := fun cs hcs c hc =>
    hword c (isWordRest_of_isDigit (hcs c hc))
  have hsign : ∀ sign, sign = [] ∨ sign = ['-'] →
      ∀ c ∈ sign, Text.isBlank c = false ∧ c ≠ '"' := by
    rintro _ (rfl | rfl)
    · exact List.forall_mem_nil _
    · exact List.forall_mem_singleton.2 (hword '-' rfl)
  cases h with
  | comment => cases ht
  | word hc hus =>
    exact List.forall_mem_cons.2 ⟨hword _ (isWordRest_of_isWordStart hc), fun u hu =>
      hword u (hus u hu)⟩
  | int hs hus => exact List.forall_mem_append.2 ⟨hsign _ hs, hdigits _ hus⟩
  | float hs hus hvs =>
    exact List.forall_mem_append.2 ⟨List.forall_mem_append.2 ⟨hsign _ hs, hdigits _ hus⟩,
      List.forall_mem_cons.2 ⟨⟨rfl, by decide⟩, hdigits _ hvs⟩⟩
  | arrow => simp only [List.forall_mem_cons]; exact ⟨⟨rfl, by decide⟩, ⟨rfl, by decide⟩, nofun⟩
  | mark hm =>
    refine List.forall_mem_singleton.2 ?_
    unfold Mark.ofChar? at hm
    split at hm <;> cases hm <;> exact ⟨rfl, by decide⟩

/-- No text of a token but a string begins with a blank character or with quotes. -/
theorem Token.Spelt.head {t : Token} {ch : Char} {us : List Char} (h : t.Spelt (ch :: us)) :
    Text.isBlank ch = false ∧ ch ≠ '"' := by
  cases hcomment : t.isComment with
  | false => exact h.forall_mem hcomment ch List.mem_cons_self
  | true =>
    generalize htext : ch :: us = text at h
    cases h with
    | comment =>
      cases htext
      exact ⟨rfl, by decide⟩
    | word =>
      unfold Token.ofWord at hcomment
      split at hcomment <;> cases hcomment
    | _ => cases hcomment

namespace Cursor

variable {t : Token} {text rest : List Char}

/-- A text of a token is read as the token before anything that does not belong to it. -/
theorem readsToken_of_spelt (h : t.Spelt text) (hrest : t.goesOn rest = false) (p : Nat) :
    ReadsToken ⟨p, text ++ rest⟩ ⟨t, ⟨p, p + bytes text⟩⟩ ⟨p + bytes text, rest⟩ := by
  rcases text with _ | ⟨ch, us⟩
  · exact absurd rfl h.ne_nil
  obtain ⟨hreading, hleft⟩ := lexeme_of_spelt h hrest
  have htext : (lexeme ch (us ++ rest)).text = ch :: us :=
    Lexeme.text_eq _ (by rw [hleft, List.cons_append])
  have hreads := ReadsToken.lexeme (p := p) h.head.1 h.head.2 hreading
  rw [htext, hleft] at hreads
  exact hreads

theorem yields_next_of_spelt (h : t.Spelt text) (hrest : t.goesOn rest = false) (p : Nat) :
    (⟨p, text ++ rest⟩ : Cursor).next.Yields ⟨t, ⟨p, p + bytes text⟩⟩ ⟨p + bytes text, rest⟩ := by
  have hreads := readsToken_of_spelt h hrest p
  rcases text with _ | ⟨ch, us⟩
  · exact absurd rfl h.ne_nil
  rw [yields_next_iff, List.cons_append, skipBlanks_of_not_blank h.head.1]
  exact hreads

end Cursor

theorem Token.Spelt.ne_string {parts : List StringPart} {text : List Char} :
    ¬ (Token.string parts).Spelt text := by
  intro h
  generalize ht : Token.string parts = t at h
  cases h with
  | word =>
    unfold Token.ofWord at ht
    split at ht <;> cases ht
  | _ => cases ht

theorem Token.Spelt.closeBrace {text : List Char} (h : (Token.mark .closeBrace).Spelt text) :
    text = ['\x7d'] := by
  generalize ht : Token.mark .closeBrace = t at h
  cases h with
  | word =>
    unfold Token.ofWord at ht
    split at ht <;> cases ht
  | mark hm =>
    cases ht
    unfold Mark.ofChar? at hm
    split at hm <;> cases hm
    rfl
  | _ => cases ht

/-! ## The text of a token -/

theorem Keyword.eq_text_of_ofText? {text : String} {k : Keyword} (h : ofText? text = some k) :
    text = k.text := by
  unfold ofText? at h
  split at h <;> cases h <;> rfl

theorem Token.Spelt.keyword (w : Keyword) : (Token.keyword w).Spelt w.text.toList := by
  have hword : Token.ofWord w.text.toList = .keyword w := by
    rw [Token.ofWord, String.ofList_toList, Keyword.ofText?_text]
  rw [← hword]
  cases w <;> exact .word rfl (List.all_eq_true.1 rfl)

theorem Token.spelt_ident_iff {name : String} {text : List Char} :
    (Token.ident name).Spelt text ↔ isBareKey name = true ∧ text = name.toList := by
  constructor
  · intro h
    generalize ht : Token.ident name = t at h
    cases h with
    | @word c us hc hus =>
      unfold Token.ofWord at ht
      split at ht
      · cases ht
      next hkeyword =>
        cases ht
        refine ⟨?_, by rw [String.toList_ofList]⟩
        simp only [isBareKey, String.toList_ofList, hc, List.all_eq_true.2 hus, hkeyword,
          Option.isNone_none, Bool.and_self]
    | _ => cases ht
  · rintro ⟨h, rfl⟩
    unfold isBareKey at h
    split at h
    · cases h
    next c cs hname =>
      simp only [Bool.and_eq_true, Option.isNone_iff_eq_none] at h
      have hword := Spelt.word h.1.1 (List.all_eq_true.1 h.1.2)
      rw [Token.ofWord, ← hname, String.ofList_toList, h.2] at hword
      exact hword

theorem Token.spelt_int (v : Int64) : (Token.int v).Spelt (toString v.toInt).toList := by
  obtain ⟨sign, d, ds, htext, hsign, hds, hinteger⟩ := exists_decimal v
  rw [htext]
  exact .int hsign hds hinteger

theorem Token.spelt_mark (m : Mark) : (Token.mark m).Spelt m.text.toList := by
  cases m with
  | arrow => exact .arrow
  | _ => exact .mark rfl

/-! ## Tokens spelled by their texts -/

/-- Where nothing goes on with a word or a number, no token goes on but an equals sign. -/
theorem Ends.goesOn {t : Token} {rest : List Char} (h : Ends rest) (ht : t.isComment = false)
    (hequals : t ≠ .mark .equals) : t.goesOn rest = false := by
  rcases rest with _ | ⟨c, cs⟩
  · exact t.goesOn_nil
  obtain ⟨hword, hquote, hpoint⟩ := h c rfl
  have hdigit := h.not_isDigit c rfl
  cases t with
  | comment => cases ht
  | ident | keyword => exact hword
  | int =>
    refine goesOn_int_iff.2 ⟨h.not_isDigit, ?_⟩
    rintro f more hcons
    obtain ⟨rfl, rfl⟩ := List.cons.inj hcons
    exact hpoint rfl f rfl
  | float => exact hdigit
  | string => simp [Token.goesOn, hquote]
  | mark m =>
    cases m with
    | equals => exact absurd rfl hequals
    | _ => rfl
  | eof => rfl

namespace Spells

variable {cs rest : List Char} {p q : List Token → Prop}

/-- A text of a token spells it before what does not belong to it. -/
theorem of_spelt {t : Token} {text : List Char} (h : t.Spelt text) (ht : t.isComment = false)
    (hrest : t.goesOn rest = false) : Spells (text ++ rest) rest (· = [t]) := by
  intro n
  refine ⟨_, [t], .cons (Cursor.yields_next_of_spelt h hrest n) ?_ (.nil _), rfl⟩
  rintro rfl
  cases ht

theorem ident {name : String} (h : isBareKey name = true) (hrest : Ends rest) :
    Spells (name.toList ++ rest) rest (· = [.ident name]) :=
  of_spelt (Token.spelt_ident_iff.2 ⟨h, rfl⟩) rfl (hrest.goesOn rfl nofun)

theorem keyword (w : Keyword) (hrest : Ends rest) :
    Spells (w.text.toList ++ rest) rest (· = [.keyword w]) :=
  of_spelt (.keyword w) rfl (hrest.goesOn rfl nofun)

theorem int (v : Int64) (hrest : Ends rest) :
    Spells ((toString v.toInt).toList ++ rest) rest (· = [.int v]) :=
  of_spelt (Token.spelt_int v) rfl (hrest.goesOn rfl nofun)

theorem mark {m : Mark} {c : Char} (h : Mark.ofChar? c = some m) (hne : m ≠ .equals)
    (hcs : Spells cs rest p) (hq : ∀ us, p us → q (.mark m :: us)) : Spells (c :: cs) rest q := by
  have hgoesOn : (Token.mark m).goesOn cs = false := by
    cases m with
    | equals => exact absurd rfl hne
    | _ => rfl
  refine (of_spelt (.mark h) rfl hgoesOn).append hcs ?_
  rintro _ us rfl hus
  exact hq us hus

theorem equals (hcs : Spells (' ' :: cs) rest p) (hq : ∀ us, p us → q (.mark .equals :: us)) :
    Spells ('=' :: ' ' :: cs) rest q := by
  refine (of_spelt (.mark rfl) rfl rfl).append hcs ?_
  rintro _ us rfl hus
  exact hq us hus

theorem arrow (hcs : Spells cs rest p) (hq : ∀ us, p us → q (.mark .arrow :: us)) :
    Spells ('=' :: '>' :: cs) rest q := by
  refine (of_spelt .arrow rfl rfl).append hcs ?_
  rintro _ us rfl hus
  exact hq us hus

end Spells

end ConfigExpr
