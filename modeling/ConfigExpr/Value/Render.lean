import ConfigExpr.Expr.Render
import ConfigExpr.Value.Basic

/-!
# Values as text

A value is shown in the notation of the language; a closure shows the lambda it was made from.
-/

namespace ConfigExpr

def Lambda.toExpr (l : Lambda) : Expr :=
  .lambda l.parameters l.body l.span

mutual

def Value.render : Value → List Char
  | .int value => (toString value.toInt).toList
  | .float value => Binary64.Layout.literal.write value
  | .string text => '"' :: Text.escape text.toList ++ ['"']
  | .bool value => (toString value).toList
  | .list items => '[' :: commaSeparated (Value.renderAll items) ++ [']']
  | .map fields => '\x7b' :: commaSeparated (Field.renderAll fields) ++ ['\x7d']
  | .closure c => c.render

def Value.renderAll : List Value → List (List Char)
  | [] => []
  | v :: vs => v.render :: Value.renderAll vs

def Field.render : Field → List Char
  | ⟨key, value⟩ => renderKey key ++ [':', ' '] ++ value.render

def Field.renderAll : List Field → List (List Char)
  | [] => []
  | f :: fs => f.render :: Field.renderAll fs

def Closure.render : Closure → List Char
  | ⟨lambda, _, _⟩ => lambda.toExpr.render

end

instance : ToString Value := ⟨fun v => String.ofList v.render⟩

end ConfigExpr
