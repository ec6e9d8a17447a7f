import ConfigExpr.Value.Basic

/-!
# Evaluation errors

The ways in which an evaluation fails, each at the span of the expression, name or key that shows
the fault.
-/

namespace ConfigExpr

/-- What an operation asks for when it is given a value of another kind. -/
inductive Wanted where
  | string
  | stringKey
  | integerIndex
  | indexable
  | list
  | map
  | function
  | collection
  deriving DecidableEq

def Wanted.text : Wanted → String
  | .string => "string"
  | .stringKey => "a string key"
  | .integerIndex => "an integer index"
  | .indexable => "a map or a list"
  | .list => "a list"
  | .map => "a map"
  | .function => "a function"
  | .collection => "a list or a map"

inductive EvalFault where
  | unbound (name : String)
  | notCallable (found : Kind)
  | arity (expected got : Nat)
  | duplicateKey (key : String)
  | missingKey (key : String)
  | outOfBounds (index : Int64) (length : Nat)
  | noMethod (name : String) (receiver : Kind)
  | notInterpolable (found : Kind)
  | mismatch (expected : Wanted) (found : Kind)
  | tooDeep (limit : Nat)
  deriving DecidableEq

structure EvalError where
  fault : EvalFault
  span : Span
  deriving DecidableEq

namespace EvalFault

def message : EvalFault → String
  | .unbound name => "`" ++ name ++ "` is not bound"
  | .notCallable found => "a " ++ found.text ++ " cannot be called"
  | .arity expected got => s!"expected {expected} arguments, got {got}"
  | .duplicateKey key => "key `" ++ key ++ "` is defined more than once"
  | .missingKey key => "no key `" ++ key ++ "`"
  | .outOfBounds index length =>
    s!"index {index.toInt} is out of bounds for a list of length {length}"
  | .noMethod name receiver => "a " ++ receiver.text ++ " has no method `" ++ name ++ "`"
  | .notInterpolable found => "a " ++ found.text ++ " cannot be interpolated into a string"
  | .mismatch expected found => "expected " ++ expected.text ++ ", found " ++ found.text
  | .tooDeep limit => s!"recursion limit of {limit} exceeded"

/-- The text beside the marked place. -/
def label : EvalFault → String
  | .unbound name => "`" ++ name ++ "` is not bound"
  | .notCallable found => "This is a " ++ found.text ++ ", not a function"
  | .arity expected got => s!"Expected {expected} arguments, got {got}"
  | .duplicateKey key => "Key `" ++ key ++ "` is defined again here"
  | .missingKey key => "No key `" ++ key ++ "` in this map"
  | .outOfBounds index _ => s!"Index {index.toInt} is out of bounds"
  | .noMethod name receiver => "No method `" ++ name ++ "` on a " ++ receiver.text
  | .notInterpolable found => "Cannot interpolate a " ++ found.text
  | .mismatch expected found => "Expected " ++ expected.text ++ ", found " ++ found.text
  | .tooDeep _ => "Evaluation nests too deeply"

def notes : EvalFault → List String
  | .unbound name => ["Bind it with `let " ++ name ++ " = ...` or pass it as an argument"]
  | .duplicateKey _ => ["Keys of a map literal must be unique"]
  | .outOfBounds _ length => [s!"The list has {length} elements"]
  | .noMethod _ _ =>
    ["String methods: unindent, trim, lines, contains, starts_with, ends_with"]
  | .notInterpolable _ =>
    ["Only strings, numbers and booleans can appear inside `$\x7b...\x7d`"]
  | .tooDeep limit => [s!"The limit is {limit} nested evaluations"]
  | _ => []

end EvalFault

def EvalError.message (e : EvalError) : String :=
  e.fault.message ++ " at " ++ e.span.toString

end ConfigExpr
