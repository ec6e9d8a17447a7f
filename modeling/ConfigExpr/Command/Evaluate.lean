import ConfigExpr.Command.Argument
import ConfigExpr.Command.Status
import ConfigExpr.Diagnostic.Problem
import ConfigExpr.Program.Run
import ConfigExpr.Value.Render

/-!
# Evaluating files

`Evaluation` is the command that evaluates a program once and shows its value, `Expansion` the one
that evaluates it for each value of one parameter. Values go to the standard output and status
lines and errors to the standard error. What each command does first, what it computes and what it
writes in the end are apart, so that the time of the middle part can be taken.
-/

namespace ConfigExpr

/-- What a command leaves behind. -/
structure Output where
  exit : Nat
  stdout : String
  stderr : String
  deriving DecidableEq

/-- The text of a file, which has to be UTF-8. -/
def decodeSource (content : Except FileFault ByteArray) : Except FileFault String :=
  match content with
  | .error fault => .error fault
  | .ok content =>
    match String.fromUTF8? content with
    | some source => .ok source
    | none => .error .invalidData

/-- The source and program in a file. -/
def loadProgram (path : String) (content : Except FileFault ByteArray) :
    Except Problem (String × Program) :=
  match decodeSource content with
  | .error fault => .error (.file fault)
  | .ok source =>
    match Program.parse source with
    | .ok program => .ok (source, program)
    | .error e => .error (.parse path source e)

/-- Evaluates a program and shows its value. -/
structure Evaluation where
  path : String
  arguments : List (String × Value)
  /-- Shows a string without quotes. -/
  raw : Bool
  limit : Nat

namespace Evaluation

def opening (c : Evaluation) (colour : Bool) : String :=
  Status.evaluating.line colour c.path

def result (c : Evaluation) (content : Except FileFault ByteArray) : Except Problem Value :=
  match loadProgram c.path content with
  | .error problem => .error problem
  | .ok (source, program) =>
    match program.evaluateWith ⟨0, 0⟩ c.arguments c.limit with
    | .ok value => .ok value
    | .error e => .error (.eval c.path source e)

/-- The line that shows a value. -/
def shown (c : Evaluation) : Value → String
  | .string text => if c.raw then text ++ "\n" else Text.quote text ++ "\n"
  | value => toString value ++ "\n"

/-- What is written after the opening. -/
def closing (c : Evaluation) (colour : Bool) (elapsed : String) :
    Except Problem Value → Output
  | .ok value => ⟨0, c.shown value, Status.evaluated.line colour ("in " ++ elapsed)⟩
  | .error problem => ⟨1, "", problem.pretty colour⟩

end Evaluation

/-- Evaluates a program once for each value of one parameter. -/
structure Expansion where
  path : String
  parameter : String
  values : List String
  arguments : List (String × Value)

/-- One value of the parameter and what the program gives for it. -/
structure ExpansionEntry where
  value : String
  result : Except EvalError Value
  elapsed : String

namespace Expansion

def opening (c : Expansion) (colour : Bool) : String :=
  Status.evaluating.line colour c.path ++
    Status.expanding.line colour s!"{c.parameter} over {c.values.length} values"

/-- The result for one value, which counts over an argument of the same name. -/
def resultFor (c : Expansion) (program : Program) (number : Nat) (value : String) :
    Except EvalError Value :=
  program.evaluateWith ⟨0, number⟩ (c.arguments ++ [(c.parameter, readLiteral value)]) defaultLimit

def entryLine (c : Expansion) (colour : Bool) (entry : ExpansionEntry) : String :=
  let status := match entry.result with
    | .ok _ => Status.entry
    | .error _ => Status.failed
  status.line colour (c.parameter ++ "=" ++ entry.value ++ " in " ++ entry.elapsed)

/-- The values up to the first entry that failed, and its error. -/
def shown (c : Expansion) : List ExpansionEntry → String × Option EvalError
  | [] => ("", none)
  | entry :: others =>
    match entry.result with
    | .error e => ("", some e)
    | .ok value =>
      let (text, error) := c.shown others
      (c.parameter ++ "=" ++ entry.value ++ "\t" ++ toString value ++ "\n" ++ text, error)

/-- What is written after the opening, in the order of the values. -/
def closing (c : Expansion) (colour : Bool) (elapsed : String) :
    Except Problem (String × List ExpansionEntry) → Output
  | .error problem => ⟨1, "", problem.pretty colour⟩
  | .ok (source, entries) =>
    let status := String.join (entries.map (c.entryLine colour)) ++
      Status.evaluated.line colour ("in " ++ elapsed)
    match c.shown entries with
    | (text, none) => ⟨0, text, status⟩
    | (text, some e) => ⟨1, text, status ++ (Problem.eval c.path source e).pretty colour⟩

/-- The entries of an expansion, each with the time that is shown for it. -/
def entries (c : Expansion) (program : Program) (elapsed : String) : List ExpansionEntry :=
  c.values.zipIdx.map fun (value, i) => ⟨value, c.resultFor program i value, elapsed⟩

end Expansion

end ConfigExpr
