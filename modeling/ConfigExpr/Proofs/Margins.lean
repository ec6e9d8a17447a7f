import ConfigExpr.Text.Indent
import Mathlib.Data.List.Forall2
import Mathlib.Data.List.TakeWhile

/-!
# Margins

The margin is the longest text that the indentation of every line that is not blank begins with
(`isPrefix_margin_iff`). Lines are split after a margin in one way only if no wider one will do
(`Outdents.unique`). So the margin is stripped from a text once and for all, and whatever else is
put before its lines is stripped with it (`unindent_outdents`).
-/

namespace ConfigExpr.Text

/-! ## The widest margin -/

theorem isPrefix_foldl_commonPrefix_iff {p a : List Char} {bs : List (List Char)} :
    p <+: bs.foldl commonPrefix a ↔ p <+: a ∧ ∀ b ∈ bs, p <+: b := by
  induction bs generalizing a with
  | nil => simp
  | cons b bs ih =>
    rw [List.foldl_cons, ih, isPrefix_commonPrefix_iff, List.forall_mem_cons, and_assoc]

theorem isPrefix_margin_iff {lines : List (List Char)}
    (h : ∃ line ∈ lines, isBlankLine line = false) {p : List Char} :
    p <+: margin lines ↔ ∀ line ∈ lines, isBlankLine line = false → p <+: indentation line := by
  have hmem : ∀ indent, indent ∈ (lines.filter (!isBlankLine ·)).map indentation ↔
      ∃ line ∈ lines, isBlankLine line = false ∧ indentation line = indent := by
    simp [and_assoc]
  trans ∀ indent ∈ (lines.filter (!isBlankLine ·)).map indentation, p <+: indent
  · unfold margin
    split
    next hnil =>
      obtain ⟨line, hline, hblank⟩ := h
      have hindent := (hmem _).2 ⟨line, hline, hblank, rfl⟩
      rw [hnil] at hindent
      cases hindent
    next first others hcons =>
      rw [hcons, isPrefix_foldl_commonPrefix_iff, List.forall_mem_cons]
  · constructor
    · intro hp line hline hblank
      exact hp _ ((hmem _).2 ⟨line, hline, hblank, rfl⟩)
    · intro hp indent hindent
      obtain ⟨line, hline, hblank, rfl⟩ := (hmem indent).1 hindent
      exact hp line hline hblank

theorem margin_isPrefix {lines : List (List Char)} {line : List Char} (hline : line ∈ lines)
    (hblank : isBlankLine line = false) : margin lines <+: indentation line :=
  (isPrefix_margin_iff ⟨line, hline, hblank⟩).1 (List.prefix_refl _) line hline hblank

theorem isBlank_of_mem_margin {lines : List (List Char)} {c : Char} (h : c ∈ margin lines) :
    isBlank c = true := by
  by_cases hlines : ∃ line ∈ lines, isBlankLine line = false
  · obtain ⟨line, hline, hblank⟩ := hlines
    exact List.mem_takeWhile_imp ((margin_isPrefix hline hblank).subset h)
  · have hnil : lines.filter (!isBlankLine ·) = [] := by
      simpa [List.filter_eq_nil_iff] using hlines
    rw [margin, hnil] at h
    cases h

/-! ## Lines after a margin -/

theorem isBlankLine_append {p rest : List Char} (h : ∀ c ∈ p, isBlank c = true) :
    isBlankLine (p ++ rest) = isBlankLine rest := by
  rw [isBlankLine, List.all_append, List.all_eq_true.2 h, Bool.true_and, isBlankLine]

/-- The rest of a line after a margin; a blank line has none. -/
def SplitsAfter (p line rest : List Char) : Prop :=
  if isBlankLine line then rest = [] else line = p ++ rest

/-- The rests of the lines after a margin that is as wide as it can be: no blank character begins
the rest of every line that is not blank. -/
structure Outdents (p : List Char) (lines rests : List (List Char)) : Prop where
  blank : ∀ c ∈ p, isBlank c = true
  split : List.Forall₂ (SplitsAfter p) lines rests
  widest : ∀ c, isBlank c = true → (∃ rest ∈ rests, isBlankLine rest = false) →
    ∃ rest ∈ rests, isBlankLine rest = false ∧ rest.head? ≠ some c

section

variable {p q : List Char} {lines rests others : List (List Char)}

theorem SplitsAfter.isBlankLine_eq {line rest : List Char} (h : SplitsAfter p line rest)
    (hp : ∀ c ∈ p, isBlank c = true) : isBlankLine line = isBlankLine rest := by
  unfold SplitsAfter at h
  split at h
  next hline => rw [hline, h, isBlankLine, List.all_nil]
  next => rw [h, isBlankLine_append hp]

theorem rightUnique_splitsAfter (p : List Char) : Relator.RightUnique (SplitsAfter p) := by
  intro line rest rest' h h'
  unfold SplitsAfter at h h'
  split at h
  next hline =>
    rw [if_pos hline] at h'
    rw [h, h']
  next hline =>
    rw [if_neg hline] at h'
    exact List.append_cancel_left (h.symm.trans h')

theorem eq_replicate_of_splitsAfter (h : List.Forall₂ (SplitsAfter p) lines rests)
    (hlines : ∀ line ∈ lines, isBlankLine line = true) :
    rests = List.replicate lines.length [] := by
  induction h with
  | nil => rfl
  | @cons line rest lines rests hline _ ih =>
    obtain ⟨hblank, hlines⟩ := List.forall_mem_cons.1 hlines
    rw [SplitsAfter, if_pos hblank] at hline
    rw [hline, ih hlines, List.length_cons, List.replicate_succ]

namespace Outdents

theorem mem_lines (h : Outdents p lines rests) {rest : List Char} (hrest : rest ∈ rests)
    (hblank : isBlankLine rest = false) : p ++ rest ∈ lines := by
  obtain ⟨hp, hsplit, -⟩ := h
  induction hsplit with
  | nil => cases hrest
  | @cons line rest' lines rests hline _ ih =>
    rcases List.mem_cons.1 hrest with rfl | hrest
    · have hnot := (hline.isBlankLine_eq hp).trans hblank
      rw [SplitsAfter, if_neg (by simp [hnot])] at hline
      exact hline ▸ List.mem_cons_self
    · exact List.mem_cons_of_mem line (ih hrest)

theorem eq_nil (h : Outdents p lines rests) {rest : List Char} (hrest : rest ∈ rests)
    (hblank : isBlankLine rest = true) : rest = [] := by
  obtain ⟨hp, hsplit, -⟩ := h
  induction hsplit with
  | nil => cases hrest
  | cons hline _ ih =>
    rcases List.mem_cons.1 hrest with rfl | hrest
    · have hline' := (hline.isBlankLine_eq hp).trans hblank
      rwa [SplitsAfter, if_pos hline'] at hline
    · exact ih hrest

theorem exists_rest (h : Outdents p lines rests) {line : List Char} (hline : line ∈ lines)
    (hblank : isBlankLine line = false) : ∃ rest ∈ rests, line = p ++ rest := by
  obtain ⟨-, hsplit, -⟩ := h
  induction hsplit with
  | nil => cases hline
  | @cons line' rest lines rests hsplit _ ih =>
    rcases List.mem_cons.1 hline with rfl | hline
    · rw [SplitsAfter, if_neg (by simp [hblank])] at hsplit
      exact ⟨rest, List.mem_cons_self, hsplit⟩
    · obtain ⟨rest', hrest', heq⟩ := ih hline
      exact ⟨rest', List.mem_cons_of_mem rest hrest', heq⟩

theorem isPrefix (h : Outdents p lines rests) (h' : Outdents q lines others)
    (hlines : ∃ line ∈ lines, isBlankLine line = false) : q <+: p := by
  have hboth : ∀ rest ∈ rests, isBlankLine rest = false → q <+: p ++ rest := by
    intro rest hrest hblank
    obtain ⟨other, -, heq⟩ := h'.exists_rest (h.mem_lines hrest hblank)
      ((isBlankLine_append h.blank).trans hblank)
    exact heq ▸ List.prefix_append q other
  obtain ⟨line, hline, hnot⟩ := hlines
  obtain ⟨rest, hrest, rfl⟩ := h.exists_rest hline hnot
  have hblank := (isBlankLine_append h.blank).symm.trans hnot
  rcases List.prefix_or_prefix_of_prefix (hboth rest hrest hblank) (List.prefix_append p rest) with
    hqp | ⟨wider, rfl⟩
  · exact hqp
  · cases wider with
    | nil => simp
    | cons c wider =>
      -- A margin that goes on with `c` leaves no line whose rest begins with anything else.
      have hc : isBlank c = true := h'.blank c (by simp)
      obtain ⟨rest', hrest', hblank', hhead⟩ := h.widest c hc ⟨rest, hrest, hblank⟩
      obtain ⟨tail, rfl⟩ := (List.prefix_append_right_inj p).1 (hboth rest' hrest' hblank')
      exact absurd rfl hhead

/-- There is one such margin, unless all lines are blank and have no rests. -/
theorem unique (h : Outdents p lines rests) (h' : Outdents q lines others) : rests = others := by
  by_cases hlines : ∃ line ∈ lines, isBlankLine line = false
  · obtain rfl : p = q :=
      (h'.isPrefix h hlines).eq_of_length_le (h.isPrefix h' hlines).length_le
    exact List.right_unique_forall₂' (rightUnique_splitsAfter p) h.split h'.split
  · have hblank : ∀ line ∈ lines, isBlankLine line = true := by simpa using hlines
    rw [eq_replicate_of_splitsAfter h.split hblank,
      eq_replicate_of_splitsAfter h'.split hblank]

/-- What is left is split after no margin. -/
theorem again (h : Outdents p lines rests) : Outdents [] rests rests where
  blank := nofun
  split := by
    refine List.forall₂_same.2 fun rest hrest => ?_
    unfold SplitsAfter
    split
    next hblank => exact h.eq_nil hrest hblank
    next => rfl
  widest := h.widest

end Outdents

/-! ## Unindenting -/

theorem margin_append_outdent {line : List Char} (hline : line ∈ lines)
    (hblank : isBlankLine line = false) :
    margin lines ++ outdent (margin lines) line = line :=
  append_outdent ((margin_isPrefix hline hblank).trans (List.takeWhile_prefix isBlank))

theorem outdents_margin (lines : List (List Char)) :
    Outdents (margin lines) lines
      (lines.map fun line => if isBlankLine line then [] else outdent (margin lines) line) where
  blank _ := isBlank_of_mem_margin
  split := by
    refine List.forall₂_map_right_iff.2 (List.forall₂_same.2 fun line hline => ?_)
    unfold SplitsAfter
    split
    next => rfl
    next hblank => exact (margin_append_outdent hline (by simpa using hblank)).symm
  widest := by
    rintro c hc ⟨rest, hrest, hblank⟩
    obtain ⟨line, hline, rfl⟩ := List.mem_map.1 hrest
    have hnot : isBlankLine line = false := by
      by_contra h
      rw [if_pos (by simpa using h)] at hblank
      cases hblank
    by_contra hall
    simp only [not_exists, not_and, not_not] at hall
    have hwider : margin lines ++ [c] <+: margin lines := by
      refine (isPrefix_margin_iff ⟨line, hline, hnot⟩).2 fun other hother hblank => ?_
      have hhead := hall _ (List.mem_map_of_mem hother)
      rw [if_neg (by simp [hblank])] at hhead
      have hsplit := margin_append_outdent hother hblank
      generalize outdent (margin lines) other = rest at hhead hsplit
      subst hsplit
      obtain ⟨tail, rfl⟩ : ∃ tail, rest = c :: tail := List.head?_eq_some_iff.1
        (hhead ((isBlankLine_append fun _ => isBlank_of_mem_margin).symm.trans hblank))
      rw [indentation, List.takeWhile_append_of_pos fun _ => isBlank_of_mem_margin,
        List.takeWhile_cons_of_pos hc]
      exact (List.prefix_append_right_inj _).2 (List.prefix_append [c] _)
    have hlength := hwider.length_le
    rw [List.length_append, List.length_singleton] at hlength
    omega

theorem pieces_unindent (text : List Char) :
    pieces (unindent text) = (pieces text).map fun line =>
      if isBlankLine line then [] else outdent (margin (pieces text)) line := by
  refine pieces_joinLines (List.forall_mem_map.2 fun line hline => ?_) ?_
  · split
    next => exact List.not_mem_nil
    next => exact fun h => not_mem_of_mem_pieces hline (mem_of_mem_outdent h)
  · exact List.map_eq_nil_iff.not.2 (pieces_ne_nil text)

theorem outdents_unindent (text : List Char) :
    Outdents (margin (pieces text)) (pieces text) (pieces (unindent text)) :=
  pieces_unindent text ▸ outdents_margin (pieces text)

theorem unindent_eq_of_outdents {p text : List Char} {rests : List (List Char)}
    (h : Outdents p (pieces text) rests) : unindent text = joinLines rests := by
  rw [← joinLines_pieces (unindent text), (outdents_unindent text).unique h]

/-- The text put before every line that is not blank. -/
def indentBy (added text : List Char) : List Char :=
  joinLines ((pieces text).map fun line => if isBlankLine line then line else added ++ line)

theorem outdents_indentBy {added : List Char} (h : ∀ c ∈ added, isBlank c = true ∧ c ≠ '\n')
    {text : List Char} (hrests : Outdents p (pieces text) rests) :
    Outdents (added ++ p) (pieces (indentBy added text)) rests := by
  have hpieces : pieces (indentBy added text) =
      (pieces text).map fun line => if isBlankLine line then line else added ++ line := by
    refine pieces_joinLines (List.forall_mem_map.2 fun line hline => ?_)
      (List.map_eq_nil_iff.not.2 (pieces_ne_nil text))
    have hnot := not_mem_of_mem_pieces hline
    split
    next => exact hnot
    next => exact fun hmem => (List.mem_append.1 hmem).elim (fun hmem => (h _ hmem).2 rfl) hnot
  rw [hpieces]
  refine ⟨?_, ?_, hrests.widest⟩
  · exact List.forall_mem_append.2 ⟨fun c hc => (h c hc).1, hrests.blank⟩
  · refine List.forall₂_map_left_iff.2 (hrests.split.imp fun line rest hsplit => ?_)
    unfold SplitsAfter at hsplit ⊢
    by_cases hblank : isBlankLine line = true
    · rw [if_pos hblank] at hsplit
      rw [if_pos hblank, if_pos hblank]
      exact hsplit
    · rw [if_neg hblank] at hsplit
      rw [if_neg hblank, isBlankLine_append fun c hc => (h c hc).1, if_neg hblank, hsplit,
        List.append_assoc]

end

/-- The lines of a text lose the widest margin that all but the blank ones begin with; a text that
has lost it keeps the rest, and none that is put before its lines is left. -/
theorem unindent_outdents (text : List Char) :
    (∃ p, Outdents p (pieces text) (pieces (unindent text))) ∧
    unindent (unindent text) = unindent text ∧
    ∀ added, (∀ c ∈ added, isBlank c = true ∧ c ≠ '\n') →
      unindent (indentBy added text) = unindent text := by
  have houtdents := outdents_unindent text
  refine ⟨⟨_, houtdents⟩, ?_, fun added hadded => ?_⟩
  · rw [unindent_eq_of_outdents houtdents.again, joinLines_pieces]
  · rw [unindent_eq_of_outdents (outdents_indentBy hadded houtdents), joinLines_pieces]

/-- Tabs and spaces, a line that is blank and one with a carriage return. -/
theorem unindent_outdents_tab :
    let text := ['\t', ' ', ' ', 'a', '\r', '\n', ' ', '\t', '\n', '\t', ' ', 'b']
    let added := [' ', '\u3000']
    (∀ c ∈ added, isBlank c = true ∧ c ≠ '\n') ∧
      unindent text = [' ', 'a', '\r', '\n', '\n', 'b'] ∧
      unindent (unindent text) = [' ', 'a', '\r', '\n', '\n', 'b'] ∧
      unindent (indentBy added text) = [' ', 'a', '\r', '\n', '\n', 'b'] := by
  intro text added
  have hadded : ∀ c ∈ added, isBlank c = true ∧ c ≠ '\n' := by
    refine List.forall_mem_cons.2 ⟨⟨rfl, by decide⟩, ?_⟩
    exact List.forall_mem_singleton.2 ⟨rfl, by decide⟩
  have htext : unindent text = [' ', 'a', '\r', '\n', '\n', 'b'] := by decide
  obtain ⟨-, hagain, hindent⟩ := unindent_outdents text
  exact ⟨hadded, htext, hagain.trans htext, (hindent added hadded).trans htext⟩

end ConfigExpr.Text
