import ConfigExpr.Diagnostic.Problem
import ConfigExpr.Program.Run
import ConfigExpr.Value.Render

/-!
# Interactive sessions

A session answers one line after the other. A line that begins with a name and an equals sign binds
the name for the lines after it, any other is evaluated and its value shown. A line that fails
leaves the session as it was.
-/

namespace ConfigExpr

/-- The name that a line binds, if it does, and the expression in it. -/
def splitBinding (line : List Char) : Option String × List Char :=
  match (Cursor.start line).next with
  | .token ⟨.ident name, _⟩ after _ =>
    match after.next with
    | .token ⟨.mark .equals, _⟩ rest _ => (some name, rest.rest)
    | _ => (none, line)
  | _ => (none, line)

/-- A line without the line feed and carriage returns it ends in. -/
def trimLineEnd (line : List Char) : List Char :=
  (line.reverse.dropWhile fun c => c == '\n' || c == '\r').reverse

/-- The line that ends a session. -/
def exitLine : List Char := ['.', 'e', 'x', 'i', 't']

/-- The line that asks for the names bound so far. -/
def namesLine : List Char := ['.', 'e', 'n', 'v']

structure Session where
  env : Env
  /-- How many lines have been answered. -/
  answered : Nat

/-- What is written for a line, to the standard output or the standard error. -/
inductive Reply where
  | silent
  | value (text : String)
  | problem (p : Problem)

namespace Session

def start : Session := ⟨[], 0⟩

def prompt : String := ">> "

/-- The value of an expression in a session. -/
def evaluate (s : Session) (source : String) : Except Problem Value :=
  match Program.parse source with
  | .error e => .error (.parse "<repl>" source e)
  | .ok program =>
    match program.evaluateIn ⟨s.answered, s.answered⟩ s.env defaultLimit with
    | .ok value => .ok value
    | .error e => .error (.eval "<repl>" source e)

/-- The session after a line to evaluate, and the reply. -/
def answer (s : Session) (line : List Char) : Session × Reply :=
  let (name, source) := splitBinding line
  let next := s.answered + 1
  match s.evaluate (String.ofList source), name with
  | .error p, _ => (⟨s.env, next⟩, .problem p)
  | .ok value, none => (⟨s.env, next⟩, .value (toString value))
  | .ok value, some name => (⟨s.env.extend [s.answered] name value, next⟩, .silent)

/-- The session after a line and the reply to it, or `none` where the line ends the session. -/
def feed (s : Session) (line : String) : Option (Session × Reply) :=
  let line := trimLineEnd line.toList
  if line = [] then some (s, .silent)
  else if line = exitLine then none
  else if line = namesLine then some (s, .value (" ".intercalate s.env.names))
  else some (s.answer line)

end Session

/-- The text of a reply. -/
def Reply.text (colour : Bool) : Reply → String
  | .silent => ""
  | .value text => text ++ "\n"
  | .problem p => p.pretty colour

end ConfigExpr
