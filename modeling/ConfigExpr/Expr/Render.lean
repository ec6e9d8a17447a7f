import ConfigExpr.Expr.Basic
import ConfigExpr.Text.Escape
import ConfigExpr.Token.Lexeme

/-!
# Expressions as text

`Expr.render` writes an expression in one line of source form, with single spaces and no
parentheses around groups. Keys are written bare where a name could stand, else between quotes.
-/

namespace ConfigExpr

/-- Whether a key can be written without quotes. -/
def isBareKey (key : String) : Bool :=
  match key.toList with
  | [] => false
  | c :: cs => isWordStart c && cs.all isWordRest && (Keyword.ofText? key).isNone

/-- A key as a map shows it. -/
def renderKey (key : String) : List Char :=
  if isBareKey key then key.toList else '"' :: Text.escape key.toList ++ ['"']

def commaSeparated (items : List (List Char)) : List Char :=
  [',', ' '].intercalate items

def Name.renderAll (names : List Name) : List Char :=
  commaSeparated (names.map (·.text.toList))

mutual

def Expr.render : Expr → List Char
  | .int value _ => (toString value.toInt).toList
  | .float value _ => Binary64.Layout.literal.write value
  | .bool value _ => (toString value).toList
  | .template segments _ => '"' :: Segment.renderAll segments ++ ['"']
  | .name n => n.text.toList
  | .letIn bindings body _ =>
    ['l', 'e', 't', ' '] ++ [' '].intercalate (Binding.renderAll bindings) ++
      [' ', 'i', 'n', ' '] ++ body.render
  | .lambda parameters body _ =>
    '(' :: Name.renderAll parameters ++ [')', ' ', '=', '>', ' '] ++ body.render
  | .apply callee arguments _ =>
    callee.render ++ '(' :: commaSeparated (Expr.renderAll arguments) ++ [')']
  | .map entries _ => '\x7b' :: commaSeparated (Entry.renderAll entries) ++ ['\x7d']
  | .list items _ => '[' :: commaSeparated (Expr.renderAll items) ++ [']']
  | .member receiver name _ => receiver.render ++ '.' :: name.text.toList
  | .method receiver name arguments _ =>
    receiver.render ++ '.' :: name.text.toList ++
      '(' :: commaSeparated (Expr.renderAll arguments) ++ [')']
  | .index receiver key _ => receiver.render ++ '[' :: key.render ++ [']']

def Expr.renderAll : List Expr → List (List Char)
  | [] => []
  | e :: es => e.render :: Expr.renderAll es

def Segment.render : Segment → List Char
  | .text s => Text.escape s.toList
  | .code e => '$' :: '\x7b' :: e.render ++ ['\x7d']

def Segment.renderAll : List Segment → List Char
  | [] => []
  | s :: ss => s.render ++ Segment.renderAll ss

def Binding.render : Binding → List Char
  | ⟨name, value⟩ => name.text.toList ++ [' ', '=', ' '] ++ value.render

def Binding.renderAll : List Binding → List (List Char)
  | [] => []
  | b :: bs => b.render :: Binding.renderAll bs

def Entry.render : Entry → List Char
  | ⟨key, value⟩ => renderKey key.text ++ [':', ' '] ++ value.render

def Entry.renderAll : List Entry → List (List Char)
  | [] => []
  | e :: es => e.render :: Entry.renderAll es

end

instance : ToString Expr := ⟨fun e => String.ofList e.render⟩

end ConfigExpr
