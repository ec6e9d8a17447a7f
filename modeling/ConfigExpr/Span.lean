/-!
# Spans

A span is a range of byte offsets into the UTF-8 form of a source text, from its start up to its
stop. Source texts are shorter than 4 GiB, so that every position is a number of 32 bits; here it has
no bound of its own.
-/

namespace ConfigExpr

structure Span where
  start : Nat
  stop : Nat
  deriving DecidableEq

namespace Span

/-- The span of one place, with nothing in it. -/
def point (position : Nat) : Span := ⟨position, position⟩

def toString (s : Span) : String :=
  s!"{s.start}..{s.stop}"

instance : ToString Span := ⟨Span.toString⟩

end Span

/-- The bytes a text takes in UTF-8. -/
def bytes : List Char → Nat
  | [] => 0
  | c :: cs => c.utf8Size + bytes cs

@[simp] theorem bytes_nil : bytes [] = 0 := rfl

@[simp] theorem bytes_cons (c : Char) (cs : List Char) :
    bytes (c :: cs) = c.utf8Size + bytes cs := rfl

@[simp] theorem bytes_append (s t : List Char) : bytes (s ++ t) = bytes s + bytes t := by
  induction s with
  | nil => simp
  | cons c cs ih => simp [ih, Nat.add_assoc]

end ConfigExpr
