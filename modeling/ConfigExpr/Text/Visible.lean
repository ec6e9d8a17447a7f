import ConfigExpr.Text.Unshown

/-!
# Visible form

`visible` shows a text between double quotes so that each of its characters can be told apart:
quotes and backslashes, and all characters that do not show by themselves, are escaped.
-/

namespace ConfigExpr.Text

def visibleChar (c : Char) : List Char :=
  if c = '"' then ['\\', '"']
  else if c = '\\' then ['\\', '\\']
  else if c = '\n' then ['\\', 'n']
  else if c = '\t' then ['\\', 't']
  else if c = '\r' then ['\\', 'r']
  else if c.toNat = 0 then ['\\', '0']
  else if unshownRanges.holds c then
    ['\\', 'u', '\x7b'] ++ Nat.toDigits 16 c.toNat ++ ['\x7d']
  else [c]

def visible (text : String) : String :=
  String.ofList ('"' :: text.toList.flatMap visibleChar ++ ['"'])

end ConfigExpr.Text
