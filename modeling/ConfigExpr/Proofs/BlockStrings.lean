import ConfigExpr.Proofs.Strings
import ConfigExpr.Proofs.Tiles
import Mathlib.Data.List.Infix

/-!
# Block strings

Between its quotes a block string is verbatim. It ends where three quotes stand for the first time,
and without them nowhere, unless code comes before (`Tokens.ofText_block`). Runs of one or two
quotes, backslashes, line feeds and dollar signs without a brace all belong to its text.
-/

namespace ConfigExpr

namespace Text

/-- The text is cut in two around the first place where the part stands in it. -/
structure FirstAt (part text before after : List Char) : Prop where
  text_eq : text = before ++ (part ++ after)
  not_before : ∀ n < before.length, ¬ part <+: text.drop n

variable {part text before after : List Char}

theorem exists_firstAt (h : part <:+: text) : ∃ before after, FirstAt part text before after := by
  induction text with
  | nil =>
    obtain rfl := List.infix_nil.1 h
    exact ⟨[], [], rfl, by simp⟩
  | cons c cs ih =>
    by_cases hpart : part <+: c :: cs
    · obtain ⟨after, hafter⟩ := hpart
      exact ⟨[], after, hafter.symm, by simp⟩
    · obtain ⟨before, after, rfl, hbefore⟩ := ih ((List.infix_cons_iff.1 h).resolve_left hpart)
      refine ⟨c :: before, after, rfl, fun n hn => ?_⟩
      rcases n with _ | n
      · exact hpart
      · exact hbefore n (by simpa using hn)

theorem not_prefix_drop (h : ¬ part <:+: text) (n : Nat) : ¬ part <+: text.drop n :=
  fun hpart => h (hpart.isInfix.trans (text.drop_suffix n).isInfix)

end Text

/-- The characters that begin code in a string. -/
def codeMarks : List Char := ['$', '\x7b']

/-- Code does not begin in a text without its marks unless the brace is the first character after
the text. -/
theorem not_codeMarks_prefix_drop {text rest : List Char} (h : ¬ codeMarks <:+: text)
    (hrest : rest.head? ≠ some '\x7b') {n : Nat} (hn : n < text.length) :
    ¬ codeMarks <+: (text ++ rest).drop n := by
  rw [List.drop_append_of_le_length (Nat.le_of_lt hn)]
  have hnot := Text.not_prefix_drop h n
  rcases hdrop : text.drop n with _ | ⟨c, _ | ⟨d, cs⟩⟩
  · exact absurd (List.drop_eq_nil_iff.1 hdrop) (Nat.not_le.2 hn)
  · rcases rest with _ | ⟨e, rest⟩
    · simp [codeMarks]
    · have hne : e ≠ '\x7b' := by simpa using hrest
      simp [codeMarks, List.cons_prefix_cons, hne.symm]
  · rw [hdrop] at hnot
    simpa [codeMarks, List.cons_prefix_cons] using hnot

/-- A text in which neither the closing quotes nor code begins is put before whatever stretch
follows it. -/
theorem verbatimStretch_append (opening p : Nat) {text rest : List Char}
    (hquotes : ∀ n < text.length, ¬ Quotes.marks .block <+: (text ++ rest).drop n)
    (hcode : ∀ n < text.length, ¬ codeMarks <+: (text ++ rest).drop n) :
    verbatimStretch opening p (text ++ rest) =
      (verbatimStretch opening (p + bytes text) rest).map fun s => (text ++ s.1, s.2) := by
  induction text generalizing p with
  | nil => cases h : verbatimStretch opening p rest <;> simp [h, Except.map]
  | cons c text ih =>
    have hquotes₀ := hquotes 0 (by simp)
    have hcode₀ := hcode 0 (by simp)
    have htail := ih (p + c.utf8Size) (fun n hn => hquotes (n + 1) (by simpa using hn))
      (fun n hn => hcode (n + 1) (by simpa using hn))
    rw [List.cons_append, verbatimStretch]
    · refine match_eq_map_cons.trans ?_
      rw [htail, bytes_cons, Nat.add_assoc]
      cases verbatimStretch opening (p + (c.utf8Size + bytes text)) rest <;> rfl
    · rintro ds rfl hds
      exact hquotes₀ ⟨ds, by simp [Quotes.marks, hds]⟩
    · rintro ds rfl hds
      exact hcode₀ ⟨ds, by simp [codeMarks, hds]⟩

theorem verbatimStretch_closed (opening p : Nat) {text before after : List Char}
    (h : Text.FirstAt (Quotes.marks .block) text before after) (hcode : ¬ codeMarks <:+: before) :
    verbatimStretch opening p text = .ok (before, .closed ⟨p + bytes before + 3, after⟩) := by
  obtain ⟨rfl, hquotes⟩ := h
  rw [verbatimStretch_append opening p hquotes fun n =>
    not_codeMarks_prefix_drop hcode (by simp [Quotes.marks])]
  simp [Quotes.marks, verbatimStretch, Except.map]

theorem verbatimStretch_unterminated (opening p : Nat) {text : List Char}
    (hquotes : ¬ Quotes.marks .block <:+: text) (hcode : ¬ codeMarks <:+: text) :
    verbatimStretch opening p text = .error ⟨.unterminatedBlock, ⟨opening, p + bytes text⟩⟩ := by
  have hquotes' : ∀ n < text.length, ¬ Quotes.marks .block <+: (text ++ []).drop n := by
    intro n _
    rw [List.append_nil]
    exact Text.not_prefix_drop hquotes n
  have h := verbatimStretch_append opening p hquotes' fun n =>
    not_codeMarks_prefix_drop hcode (by simp)
  rw [List.append_nil] at h
  rw [h, verbatimStretch]
  rfl

/-- A block string is verbatim up to the first three quotes after its own, whatever comes after
them: where no code begins before those, its only part is the text up to there, and it has none
where that text is empty. If neither closing quotes nor code follow, the string has no end, and all
of the source is at fault. -/
theorem Tokens.ofText_block (r : String) :
    (Quotes.marks .block <:+: r.toList →
      ∃ before after, Text.FirstAt (Quotes.marks .block) r.toList before after) ∧
    (∀ before after, Text.FirstAt (Quotes.marks .block) r.toList before after →
      ¬ codeMarks <:+: before →
      let parts := if before = [] then [] else [.text (String.ofList before)]
      let others := Cursor.tokens ⟨bytes before + 6, after⟩
      ofText ("\"\"\"" ++ r) =
        ⟨⟨.string parts, ⟨0, bytes before + 6⟩⟩ :: others.tokens, others.error⟩) ∧
    (¬ Quotes.marks .block <:+: r.toList → ¬ codeMarks <:+: r.toList →
      ofText ("\"\"\"" ++ r) =
        ⟨[], some ⟨.unterminatedBlock, ⟨0, bytes ("\"\"\"" ++ r).toList⟩⟩⟩) := by
  have hsource : ("\"\"\"" ++ r).toList = '"' :: '"' :: '"' :: r.toList := by simp
  rw [ofText, hsource, Cursor.start]
  refine ⟨Text.exists_firstAt, fun before after hfirst hcode => ?_, fun hquotes hcode => ?_⟩
  · have hstretch : stretch .block 0 ⟨0 + 3, r.toList⟩ =
        .ok (before, .closed ⟨bytes before + 6, after⟩) := by
      rw [stretch_block, verbatimStretch_closed 0 _ hfirst hcode,
        show 0 + 3 + bytes before + 3 = bytes before + 6 by omega]
    have hreads := Cursor.ReadsToken.block (.closed hstretch)
    have hparts : StringPart.ofText before =
        if before = [] then [] else [.text (String.ofList before)] := by
      simp [StringPart.ofText]
    rw [Cursor.tokens_of_yields (hreads.yields _ hreads.skipBlanks_eq), hparts]
  · have hstretch : stretch .block 0 ⟨0 + 3, r.toList⟩ =
        .error ⟨.unterminatedBlock, ⟨0, 0 + 3 + bytes r.toList⟩⟩ := by
      rw [stretch_block]
      exact verbatimStretch_unterminated 0 _ hquotes hcode
    have hfails := Cursor.FailsToken.block (.stretch hstretch)
    have hskip : (⟨0, '"' :: '"' :: '"' :: r.toList⟩ : Cursor).skipBlanks = ⟨0, _⟩ :=
      Cursor.skipBlanks_of_not_blank rfl
    have hbytes : bytes ('"' :: '"' :: '"' :: r.toList) = 0 + 3 + bytes r.toList := by
      simp only [bytes_cons, show ('"' : Char).utf8Size = 1 from rfl]
      omega
    rw [Cursor.tokens, hfails.next_eq _ hskip, hbytes]

/-- Two quotes and a dollar sign before a run of four quotes, of which three close the string, and a
text that ends in a dollar sign without a third quote. -/
theorem Tokens.ofText_block_quotes :
    (let r := "é\"\"$\"\"\"\" 1"
     Quotes.marks .block <:+: r.toList ∧
     Text.FirstAt (Quotes.marks .block) r.toList ['é', '"', '"', '$'] ['"', ' ', '1'] ∧
     ¬ codeMarks <:+: ['é', '"', '"', '$'] ∧
     ofText ("\"\"\"" ++ r) =
       ⟨[⟨.string [.text "é\"\"$"], ⟨0, 11⟩⟩], some ⟨.unterminatedString, ⟨11, 14⟩⟩⟩) ∧
    (let r := "a\"\"\n$"
     ¬ Quotes.marks .block <:+: r.toList ∧ ¬ codeMarks <:+: r.toList ∧
     ofText ("\"\"\"" ++ r) = ⟨[], some ⟨.unterminatedBlock, ⟨0, 8⟩⟩⟩) := by
  constructor
  · intro r
    have hr : r.toList = ['é', '"', '"', '$', '"', '"', '"', '"', ' ', '1'] := by decide
    have hfirst : Text.FirstAt (Quotes.marks .block) r.toList ['é', '"', '"', '$']
        ['"', ' ', '1'] := by
      rw [hr]
      exact ⟨rfl, by decide⟩
    have hcode : ¬ codeMarks <:+: ['é', '"', '"', '$'] := by decide
    have hoccurs : Quotes.marks .block <:+: r.toList := by decide
    obtain ⟨-, hread, -⟩ := ofText_block r
    exact ⟨hoccurs, hfirst, hcode, (hread _ _ hfirst hcode).trans (by cbv)⟩
  · intro r
    have hquotes : ¬ Quotes.marks .block <:+: r.toList := by decide
    have hcode : ¬ codeMarks <:+: r.toList := by decide
    obtain ⟨-, -, hfails⟩ := ofText_block r
    exact ⟨hquotes, hcode, (hfails hquotes hcode).trans (by cbv)⟩

end ConfigExpr
