/-!
# Lines

A text is cut at its line feeds. `pieces` keeps every piece, `lines` leaves out the empty one after
a final line feed; a carriage return is an ordinary character.
-/

namespace ConfigExpr.Text

/-- The pieces between line feeds, one more than there are line feeds. -/
def pieces (text : List Char) : List (List Char) :=
  text.splitOn '\n'

def joinLines (lines : List (List Char)) : List Char :=
  ['\n'].intercalate lines

theorem joinLines_pieces (text : List Char) : joinLines (pieces text) = text :=
  List.intercalate_splitOn '\n'

theorem pieces_joinLines {lines : List (List Char)} (h : ∀ line ∈ lines, '\n' ∉ line)
    (hne : lines ≠ []) : pieces (joinLines lines) = lines :=
  List.splitOn_intercalate '\n' h hne

theorem pieces_ne_nil (text : List Char) : pieces text ≠ [] :=
  List.splitOn_ne_nil '\n' text

theorem not_mem_of_mem_pieces {text line : List Char} (h : line ∈ pieces text) : '\n' ∉ line := by
  induction text generalizing line with
  | nil =>
    obtain rfl := List.mem_singleton.1 h
    exact List.not_mem_nil
  | cons c text ih =>
    rw [pieces, List.splitOn_cons_eq_if_modifyHead] at h
    split at h
    next =>
      rcases List.mem_cons.1 h with rfl | h
      · exact List.not_mem_nil
      · exact ih h
    next hc =>
      obtain ⟨first, others, hpieces⟩ := List.exists_cons_of_ne_nil (pieces_ne_nil text)
      rw [← pieces, hpieces, List.modifyHead_cons] at h
      rcases List.mem_cons.1 h with rfl | h
      · have hfirst := ih (hpieces ▸ List.mem_cons_self)
        exact List.not_mem_cons_of_ne_of_not_mem (fun heq => hc (beq_iff_eq.2 heq.symm)) hfirst
      · exact ih (hpieces ▸ List.mem_cons_of_mem first h)

/-- A line feed ends a line, so nothing follows a final one. -/
def lines (text : List Char) : List (List Char) :=
  let ps := pieces text
  if ps.getLast? = some [] then ps.dropLast else ps

end ConfigExpr.Text
