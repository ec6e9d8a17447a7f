import ConfigExpr.Token.Lexer
import ConfigExpr.Value.Basic

/-!
# Arguments

An argument on a command line is a name, an equals sign and a value. The value is a number or a
boolean where its text is one token of that kind, else the text itself.
-/

namespace ConfigExpr

/-- The one token of a text. -/
def Token.only? (text : List Char) : Option Token :=
  match (Cursor.start text).next with
  | .token t after _ =>
    match after.next with
    | .finish _ => some t.token
    | _ => none
  | _ => none

/-- The value that a text on a command line stands for. -/
def readLiteral (text : String) : Value :=
  match Token.only? text.toList with
  | some (.int value) => .int value
  | some (.float value) => .float value
  | some (.keyword .trueWord) => .bool true
  | some (.keyword .falseWord) => .bool false
  | _ => .string text

inductive ArgumentError where
  | noEquals (argument : String)
  | invalidName (name : String)
  deriving DecidableEq

def ArgumentError.message : ArgumentError → String
  | .noEquals argument => "expected NAME=VALUE, found `" ++ argument ++ "`"
  | .invalidName name => "`" ++ name ++ "` is not a valid name"

/-- The text before the first equals sign and the text after it. -/
def splitAtEquals? (text : List Char) : Option (List Char × List Char) :=
  match text.dropWhile (· != '=') with
  | [] => none
  | _ :: value => some (text.takeWhile (· != '='), value)

/-- The name and value of an argument. Blank characters around a name are allowed and stay in it. -/
def readArgument (argument : String) : Except ArgumentError (String × Value) :=
  match splitAtEquals? argument.toList with
  | none => .error (.noEquals argument)
  | some (name, value) =>
    match Token.only? name with
    | some (.ident _) => .ok (String.ofList name, readLiteral (String.ofList value))
    | _ => .error (.invalidName (String.ofList name))

end ConfigExpr
