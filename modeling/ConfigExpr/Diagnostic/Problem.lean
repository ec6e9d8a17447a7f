import ConfigExpr.Diagnostic.Basic
import ConfigExpr.Eval.Error
import ConfigExpr.Expr.Error

/-!
# Problems

Whatever can go wrong between the path of a program and its value: the file cannot be read, its
text is no program, or the program has no value.
-/

namespace ConfigExpr

/-- Why a file could not be read. -/
inductive FileFault where
  | notFound
  | permissionDenied
  | alreadyExists
  | invalidInput
  | invalidData
  | timedOut
  | interrupted
  | unexpectedEnd
  | isDirectory
  | notDirectory
  | other
  deriving DecidableEq

def FileFault.text : FileFault → String
  | .notFound => "entity not found"
  | .permissionDenied => "permission denied"
  | .alreadyExists => "entity already exists"
  | .invalidInput => "invalid input parameter"
  | .invalidData => "invalid data"
  | .timedOut => "timed out"
  | .interrupted => "operation interrupted"
  | .unexpectedEnd => "unexpected end of file"
  | .isDirectory => "is a directory"
  | .notDirectory => "not a directory"
  | .other => "other error"

inductive Problem where
  | parse (path source : String) (e : ParseError)
  | eval (path source : String) (e : EvalError)
  | file (fault : FileFault)

namespace Problem

/-- Names the file that the source was read from. -/
def withPath (path : String) : Problem → Problem
  | .parse _ source e => .parse path source e
  | .eval _ source e => .eval path source e
  | .file fault => .file fault

def message : Problem → String
  | .parse _ _ e => "failed to parse source code: " ++ e.message
  | .eval _ _ e => "evaluation failed: " ++ e.message
  | .file fault => "IO operation failed: " ++ fault.text

def diagnostic : Problem → Diagnostic
  | .parse path source e =>
    ⟨"Syntax error", e.fault.notes, some ⟨source, path, e.span, e.fault.label⟩⟩
  | .eval path source e =>
    ⟨"Evaluation error", e.fault.notes, some ⟨source, path, e.span, e.fault.label⟩⟩
  | .file fault => ⟨"Standard IO error", [fault.text], none⟩

/-- The diagnostic with an empty line after it. -/
def pretty (p : Problem) (colour : Bool) : String :=
  p.diagnostic.write colour ++ "\n"

end Problem

end ConfigExpr
