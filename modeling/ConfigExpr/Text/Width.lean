import ConfigExpr.Text.Extend
import ConfigExpr.Text.Wide

/-!
# Display width

The columns a character takes on a terminal. Characters that are drawn onto another one, or are left
out, take none, and wide characters take two. Unicode properties are those of version 15.1.
-/

namespace ConfigExpr.Text

def controlRanges : Ranges :=
  [(0x0, 0x1F), (0x7F, 0x9F)]

/-- The characters with the property Default_Ignorable_Code_Point, which a renderer without support
for them leaves out. -/
def ignorableRanges : Ranges :=
  [(0xAD, 0xAD), (0x34F, 0x34F), (0x61C, 0x61C), (0x115F, 0x1160), (0x17B4, 0x17B5),
   (0x180B, 0x180F), (0x200B, 0x200F), (0x202A, 0x202E), (0x2060, 0x206F), (0x3164, 0x3164),
   (0xFE00, 0xFE0F), (0xFEFF, 0xFEFF), (0xFFA0, 0xFFA0), (0xFFF0, 0xFFF8), (0x1BCA0, 0x1BCA3),
   (0x1D173, 0x1D17A), (0xE0000, 0xE0FFF)]

/-- Spacing vowel signs that are equivalent to two extending characters. -/
def doubleExtendRanges : Ranges :=
  [(0xCC0, 0xCC0), (0xCC7, 0xCC8), (0xCCA, 0xCCB), (0x1B3B, 0x1B3B), (0x1B3D, 0x1B3D),
   (0x1B43, 0x1B43)]

/-- Vowels and final consonants of Korean syllables, drawn onto the consonant before them. -/
def joiningJamoRanges : Ranges :=
  [(0x1160, 0x11FF), (0xD7B0, 0xD7C6), (0xD7CB, 0xD7FB)]

/-- Characters drawn onto those after them: the letters with the value Prepend of the property
Grapheme_Cluster_Break, and the marks of numbers and words that stand above or below them. -/
def prependRanges : Ranges :=
  [(0x605, 0x605), (0x70F, 0x70F), (0x890, 0x891), (0x8E2, 0x8E2), (0xD4E, 0xD4E), (0xA8FA, 0xA8FA),
   (0x111C2, 0x111C3), (0x1193F, 0x1193F), (0x11941, 0x11941), (0x11A3A, 0x11A3A),
   (0x11A84, 0x11A89), (0x11D46, 0x11D46), (0x11F02, 0x11F02)]

/-- The characters that take no column. -/
def isZeroWidth (c : Char) : Bool :=
  controlRanges.holds c || ignorableRanges.holds c || extendRanges.holds c ||
    doubleExtendRanges.holds c || joiningJamoRanges.holds c || prependRanges.holds c

/-- The characters whose width does not follow from a property: the joiner of Tifinagh consonants,
the filler for a Korean consonant, and two Khmer signs that are drawn as several letters. -/
def exceptionalWidth? (c : Char) : Option Nat :=
  match c.toNat with
  | 0x2D7F => some 1
  | 0x115F => some 2
  | 0x17A4 => some 2
  | 0x17D8 => some 3
  | _ => none

def width (c : Char) : Nat :=
  if 0x20 ≤ c.toNat ∧ c.toNat < 0x7F then 1
  else
    match exceptionalWidth? c with
    | some n => n
    | none => if isZeroWidth c then 0 else if wideRanges.holds c then 2 else 1

end ConfigExpr.Text
