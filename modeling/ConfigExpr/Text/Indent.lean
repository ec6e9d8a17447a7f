import ConfigExpr.Text.Blank
import ConfigExpr.Text.Lines

/-!
# Common indentation

The margin of a text is the longest run of blank characters that begins every line that is not
blank. `unindent` takes the margin off those lines and empties the blank ones.
-/

namespace ConfigExpr.Text

def commonPrefix : List Char → List Char → List Char
  | a :: as, b :: bs => if a = b then a :: commonPrefix as bs else []
  | _, _ => []

theorem commonPrefix_isPrefix_left : ∀ a b : List Char, commonPrefix a b <+: a
  | [], b => by simp [commonPrefix]
  | a :: as, [] => by simp [commonPrefix]
  | a :: as, b :: bs => by
    by_cases h : a = b
    · simpa [commonPrefix, h] using commonPrefix_isPrefix_left as bs
    · simp [commonPrefix, h]

theorem commonPrefix_isPrefix_right : ∀ a b : List Char, commonPrefix a b <+: b
  | [], b => by simp [commonPrefix]
  | a :: as, [] => by simp [commonPrefix]
  | a :: as, b :: bs => by
    by_cases h : a = b
    · simpa [commonPrefix, h] using commonPrefix_isPrefix_right as bs
    · simp [commonPrefix, h]

theorem isPrefix_commonPrefix_iff {p a b : List Char} :
    p <+: commonPrefix a b ↔ p <+: a ∧ p <+: b := by
  constructor
  · intro h
    exact ⟨h.trans (commonPrefix_isPrefix_left a b), h.trans (commonPrefix_isPrefix_right a b)⟩
  · rintro ⟨ha, hb⟩
    induction p generalizing a b with
    | nil => exact List.nil_prefix
    | cons c p ih =>
      obtain ⟨as, rfl, has⟩ := List.cons_prefix_iff.1 ha
      obtain ⟨bs, rfl, hbs⟩ := List.cons_prefix_iff.1 hb
      rw [commonPrefix, if_pos rfl, List.cons_prefix_cons]
      exact ⟨rfl, ih has hbs⟩

/-- The blank characters a line begins with. -/
def indentation (line : List Char) : List Char :=
  line.takeWhile isBlank

/-- The margin of a text without a line that is not blank is empty. -/
def margin (lines : List (List Char)) : List Char :=
  match (lines.filter (!isBlankLine ·)).map indentation with
  | [] => []
  | first :: others => others.foldl commonPrefix first

/-- A line that does not begin with `p` is kept as it is. -/
def outdent (p line : List Char) : List Char :=
  if p.isPrefixOf line then line.drop p.length else line

theorem append_outdent {p line : List Char} (h : p <+: line) : p ++ outdent p line = line := by
  rw [outdent, if_pos (List.isPrefixOf_iff_prefix.2 h)]
  exact List.prefix_iff_eq_append.1 h

theorem mem_of_mem_outdent {p line : List Char} {c : Char} (h : c ∈ outdent p line) : c ∈ line := by
  rw [outdent] at h
  split at h
  next => exact List.mem_of_mem_drop h
  next => exact h

def unindent (text : List Char) : List Char :=
  let ls := pieces text
  joinLines (ls.map fun line => if isBlankLine line then [] else outdent (margin ls) line)

end ConfigExpr.Text
