import ConfigExpr.Eval.Evaluator
import Mathlib.Data.List.Infix

/-!
# What the lines of a text keep

With a line feed after each of them the lines of a text make up the text again, and at most the line
feed after its last line is new (`endLines_lines`). No other lines do (`lines_endLines`), so a line
is kept at its place, empty or not, with all its characters (`callMethod_lines_keeps`).
-/

namespace ConfigExpr

namespace Text

/-- The lines with a line feed after each. -/
def endLines (lines : List (List Char)) : List Char :=
  lines.flatMap (· ++ ['\n'])

/-- A text without a last line that has no line feed after it. -/
def IsEnded (text : List Char) : Prop :=
  text = [] ∨ ['\n'] <:+ text

instance (text : List Char) : Decidable (IsEnded text) :=
  inferInstanceAs (Decidable (_ ∨ _))

variable {text last : List Char} {init ls : List (List Char)}

theorem joinLines_append_singleton (init : List (List Char)) (last : List Char) :
    joinLines (init ++ [last]) = endLines init ++ last := by
  induction init with
  | nil => exact List.intercalate_singleton
  | cons line init ih =>
    rw [List.cons_append, joinLines, List.intercalate_cons_of_ne_nil (by simp), ← joinLines, ih]
    simp [endLines]

/-! ## The last piece -/

theorem exists_pieces_eq (text : List Char) : ∃ init last, pieces text = init ++ [last] :=
  ⟨_, _, (List.dropLast_append_getLast (pieces_ne_nil text)).symm⟩

theorem lines_of_pieces (h : pieces text = init ++ [last]) :
    lines text = if last = [] then init else init ++ [last] := by
  simp only [lines, h, List.getLast?_concat, List.dropLast_concat, Option.some.injEq]

theorem eq_endLines_append (h : pieces text = init ++ [last]) : text = endLines init ++ last := by
  rw [← joinLines_append_singleton, ← h, joinLines_pieces]

theorem isEnded_endLines (ls : List (List Char)) : IsEnded (endLines ls) := by
  rcases List.eq_nil_or_concat' ls with rfl | ⟨init, line, rfl⟩
  · exact .inl rfl
  · refine .inr ⟨endLines init ++ line, ?_⟩
    simp [endLines]

/-- A text is ended if its last piece is empty. -/
theorem isEnded_iff_of_pieces (h : pieces text = init ++ [last]) : IsEnded text ↔ last = [] := by
  have htext := eq_endLines_append h
  have hlast : '\n' ∉ last := not_mem_of_mem_pieces (h ▸ List.mem_append_right init (by simp))
  constructor
  · intro hended
    by_contra hne
    rcases hended with hnil | hsuffix
    · exact hne (List.append_eq_nil_iff.1 (htext.symm.trans hnil)).2
    · rw [List.singleton_suffix_iff_getLast?_eq_some, htext, List.getLast?_append_of_ne_nil _ hne]
        at hsuffix
      exact hlast (List.mem_of_getLast? hsuffix)
  · rintro rfl
    rw [htext, List.append_nil]
    exact isEnded_endLines init

/-! ## The lines and the text -/

theorem mem_pieces_of_mem_lines {line : List Char} (h : line ∈ lines text) : line ∈ pieces text := by
  obtain ⟨init, last, hpieces⟩ := exists_pieces_eq text
  rw [lines_of_pieces hpieces] at h
  rw [hpieces]
  split at h
  · exact List.mem_append_left _ h
  · exact h

theorem not_mem_of_mem_lines {line : List Char} (h : line ∈ lines text) : '\n' ∉ line :=
  not_mem_of_mem_pieces (mem_pieces_of_mem_lines h)

theorem endLines_lines (text : List Char) :
    endLines (lines text) = if IsEnded text then text else text ++ ['\n'] := by
  obtain ⟨init, last, hpieces⟩ := exists_pieces_eq text
  have htext := eq_endLines_append hpieces
  rw [lines_of_pieces hpieces]
  by_cases hlast : last = []
  · rw [if_pos hlast, if_pos ((isEnded_iff_of_pieces hpieces).2 hlast), htext, hlast,
      List.append_nil]
  · rw [if_neg hlast, if_neg (mt (isEnded_iff_of_pieces hpieces).1 hlast), htext]
    simp [endLines]

theorem pieces_endLines (h : ∀ line ∈ ls, '\n' ∉ line) : pieces (endLines ls) = ls ++ [[]] := by
  rw [← List.append_nil (endLines ls), ← joinLines_append_singleton]
  exact pieces_joinLines (List.forall_mem_append.2 ⟨h, by simp⟩) (by simp)

/-- Only these lines, each ended, make up the text. -/
theorem lines_endLines (h : ∀ line ∈ ls, '\n' ∉ line) : lines (endLines ls) = ls := by
  rw [lines_of_pieces (pieces_endLines h), if_pos rfl]

theorem lines_append_cons (before after : List Char) :
    lines (before ++ '\n' :: after) = pieces before ++ lines after := by
  have hsplit : pieces (before ++ '\n' :: after) = pieces before ++ pieces after :=
    List.splitOn_append_cons_self before after
  obtain ⟨init, last, hpieces⟩ := exists_pieces_eq after
  rw [hpieces, ← List.append_assoc] at hsplit
  rw [lines_of_pieces hsplit, lines_of_pieces hpieces]
  split
  · rfl
  · rw [List.append_assoc]

/-- A line of a text is kept between the lines before it and those after it. -/
theorem lines_append_line {before line : List Char} (hbefore : IsEnded before)
    (hline : '\n' ∉ line) (after : List Char) :
    lines (before ++ (line ++ '\n' :: after)) = lines before ++ line :: lines after := by
  have hothers : lines (line ++ '\n' :: after) = line :: lines after := by
    rw [lines_append_cons, pieces, List.splitOn_eq_singleton hline, List.singleton_append]
  rcases hbefore with rfl | ⟨before, rfl⟩
  · exact hothers
  · rw [List.append_assoc, List.singleton_append, lines_append_cons before, hothers,
      lines_append_cons, show lines [] = [] from rfl, List.append_nil]

theorem lines_eq_nil_iff : lines text = [] ↔ text = [] := by
  constructor
  · intro h
    have htext := endLines_lines text
    rw [h] at htext
    split at htext
    · exact htext.symm
    · exact absurd htext.symm (by simp [endLines])
  · rintro rfl
    rfl

end Text

open Text

/-- The lines of a string hold no line feeds, and they are the only such lines that make up the
string when each is ended, but for a line feed that its last line lacks. So each of its lines is
kept at its place, empty or not, and only the empty string has none. -/
theorem callMethod_lines_keeps (eval : Evaluator) (site : Site) (text : String) (s span : Span) :
    ∃ ls, callMethod eval site (.string text) ⟨"lines", s⟩ [] span =
        .ok (.list (ls.map fun line => .string (String.ofList line))) ∧
      (∀ line ∈ ls, '\n' ∉ line) ∧
      endLines ls = (if IsEnded text.toList then text.toList else text.toList ++ ['\n']) ∧
      (∀ others, (∀ line ∈ others, '\n' ∉ line) → endLines others = endLines ls → others = ls) ∧
      (∀ before line after, text.toList = before ++ (line ++ '\n' :: after) → IsEnded before →
        '\n' ∉ line → ls = lines before ++ line :: lines after) ∧
      (ls = [] ↔ text = "") := by
  refine ⟨lines text.toList, rfl, fun _ => not_mem_of_mem_lines, endLines_lines _, ?_, ?_, ?_⟩
  · intro others hothers hended
    rw [← lines_endLines hothers, hended, lines_endLines fun _ => not_mem_of_mem_lines]
  · intro before line after htext hbefore hline
    rw [htext, lines_append_line hbefore hline]
  · rw [lines_eq_nil_iff, String.toList_eq_nil_iff]

/-- Empty lines at the start and inside, a carriage return, and a last line without a line feed. -/
theorem callMethod_lines_keeps_empty :
    let text := "\n\r\n\nb"
    let ls := [[], ['\r'], [], ['b']]
    callMethod (Expr.eval 0 0) [] (.string text) ⟨"lines", ⟨0, 0⟩⟩ [] ⟨0, 0⟩ =
        .ok (.list [.string "", .string "\r", .string "", .string "b"]) ∧
      '\n' ∉ ['\r'] ∧ endLines ls = text.toList ++ ['\n'] ∧ IsEnded ['\n', '\r', '\n'] ∧
      ls = lines ['\n', '\r', '\n'] ++ [] :: lines ['b'] ∧ ls ≠ [] := by
  intro text ls
  obtain ⟨kept, hcall, hmem, hended, honly, hline, hnil⟩ :=
    callMethod_lines_keeps (Expr.eval 0 0) [] text ⟨0, 0⟩ ⟨0, 0⟩
  rw [if_neg (by decide)] at hended
  obtain rfl : ls = kept := honly ls (by decide) (by rw [hended]; decide)
  have hbefore : IsEnded ['\n', '\r', '\n'] := by decide
  exact ⟨hcall, hmem ['\r'] (by decide), hended, hbefore,
    hline _ [] ['b'] (by decide) hbefore (by decide), mt hnil.1 (by decide)⟩

end ConfigExpr
