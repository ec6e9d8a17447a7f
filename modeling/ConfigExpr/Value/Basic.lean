import ConfigExpr.Expr.Basic

/-!
# Values

A value is a number, a string, a boolean, a list, a map or a closure. A map keeps the order of its
fields. A closure is a lambda with the environment it was made in; an environment is a chain of
frames, innermost first, each with one binding.

Each frame carries the `Site` it was made at, which stands for its identity: no two frames that a
run makes have the same site (`Program.counted_evaluateWith`), and those of runs with different
numbers have different sites (`Site.Inside.ne_of_number`). Runs whose values may meet are given
different numbers.
-/

namespace ConfigExpr

/-- The run in which a frame was made and the path of the evaluation that made it, innermost step
first. -/
abbrev Site := List Nat

structure Lambda where
  parameters : List Name
  body : Expr
  span : Span

mutual

inductive Value where
  | int (value : Int64)
  | float (value : Binary64)
  | string (text : String)
  | bool (value : Bool)
  | list (items : List Value)
  | map (fields : List Field)
  | closure (c : Closure)

structure Field where
  key : String
  value : Value

structure Closure where
  lambda : Lambda
  /-- The program that the lambda stands in. -/
  program : Nat
  env : List Frame

structure Frame where
  site : Site
  name : String
  value : Value

end

abbrev Env := List Frame

namespace Env

/-- The innermost binding of a name. -/
def lookup? (env : Env) (name : String) : Option Value :=
  (env.find? (·.name == name)).map (·.value)

def extend (env : Env) (site : Site) (name : String) (value : Value) : Env :=
  ⟨site, name, value⟩ :: env

/-- The bound names, innermost first, each as often as it is bound. -/
def names (env : Env) : List String :=
  env.map (·.name)

/-- Two environments are the same if they have the same innermost frame, or none. -/
def same (a b : Env) : Bool :=
  a.head?.map (·.site) == b.head?.map (·.site)

end Env

namespace Field

/-- The value of a key. -/
def get? (fields : List Field) (key : String) : Option Value :=
  (fields.find? (·.key == key)).map (·.value)

/-- The first key that a field before it has too. -/
def repeated? (seen : List String) : List Field → Option String
  | [] => none
  | f :: fs => if f.key ∈ seen then some f.key else repeated? (f.key :: seen) fs

end Field

/-- A map of the given fields, or the first key that appears twice. -/
def Value.ofFields (fields : List Field) : Except String Value :=
  match Field.repeated? [] fields with
  | some key => .error key
  | none => .ok (.map fields)

/-- The kind of a value, as errors name it. -/
inductive Kind where
  | number
  | string
  | boolean
  | list
  | map
  | closure
  deriving DecidableEq

def Kind.text : Kind → String
  | .number => "number"
  | .string => "string"
  | .boolean => "boolean"
  | .list => "list"
  | .map => "map"
  | .closure => "closure"

namespace Value

def kind : Value → Kind
  | .int _ | .float _ => .number
  | .string _ => .string
  | .bool _ => .boolean
  | .list _ => .list
  | .map _ => .map
  | .closure _ => .closure

def string? : Value → Option String
  | .string text => some text
  | _ => none

/-- The text that code in a string leaves in its place. -/
def interpolated? : Value → Option String
  | .string text => some text
  | .int value => some (toString value.toInt)
  | .float value => some value.toLiteral
  | .bool value => some (toString value)
  | _ => none

end Value

/-! Equality of values compares numbers as numbers and maps in the order of their fields. Closures
are equal if they hold the same lambda of the same program in the same environment. -/

def Closure.same (a b : Closure) : Bool :=
  a.program == b.program && a.lambda.span == b.lambda.span && Env.same a.env b.env

mutual

def Value.beq : Value → Value → Bool
  | .int a, .int b => a == b
  | .float a, .float b => a == b
  | .string a, .string b => a == b
  | .bool a, .bool b => a == b
  | .list a, .list b => Value.beqAll a b
  | .map a, .map b => Field.beqAll a b
  | .closure a, .closure b => a.same b
  | _, _ => false
termination_by structural v => v

def Value.beqAll : List Value → List Value → Bool
  | [], [] => true
  | v :: vs, w :: ws => v.beq w && Value.beqAll vs ws
  | _, _ => false
termination_by structural vs => vs

def Field.beq : Field → Field → Bool
  | ⟨k, v⟩, ⟨l, w⟩ => k == l && v.beq w
termination_by structural f => f

def Field.beqAll : List Field → List Field → Bool
  | [], [] => true
  | f :: fs, g :: gs => f.beq g && Field.beqAll fs gs
  | _, _ => false
termination_by structural fs => fs

end

instance : BEq Value := ⟨Value.beq⟩

end ConfigExpr
