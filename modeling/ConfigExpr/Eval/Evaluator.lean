import ConfigExpr.Eval.Builtin
import ConfigExpr.Eval.Method

/-!
# Evaluation

`Expr.step` gives the value of an expression from the values of its parts, and `Expr.eval` closes
the recursion: it counts how deeply evaluations are nested and fails where the count is used up.
The body of a closure is evaluated at the depth of the other parts of the call. An evaluator whose
count is state, raised and lowered around each evaluation, has the same outcomes
(`Counted.refines_eval`).
-/

namespace ConfigExpr

/-- Where an expression is evaluated: the program it stands in, the site of the evaluation and the
bindings it sees. -/
structure Scope where
  program : Nat
  site : Site
  env : Env

namespace Scope

/-- The scope of the part of an expression with the given number. -/
def part (scope : Scope) (k : Nat) : Scope :=
  { scope with site := k :: scope.site }

/-- Adds the binding with the given number of those an evaluation makes. -/
def bind (scope : Scope) (k : Nat) (name : String) (value : Value) : Scope :=
  { scope with env := scope.env.extend (k :: scope.site) name value }

/-- Adds bindings of names to values, numbered from `k` on. -/
def bindAll (scope : Scope) (k : Nat) : List (String × Value) → Scope
  | [] => scope
  | (name, value) :: others => (scope.bind k name value).bindAll (k + 1) others

end Scope

abbrev Evaluator := Scope → Expr → Except EvalError Value

def EvalFault.at {α : Type} (span : Span) : Except EvalFault α → Except EvalError α
  | .ok value => .ok value
  | .error fault => .error ⟨fault, span⟩

section

variable (eval : Evaluator)

/-- The values of expressions, from left to right. -/
def evalAll (scope : Scope) (k : Nat) : List Expr → Except EvalError (List Value)
  | [] => .ok []
  | e :: es => do
    let value ← eval (scope.part k) e
    let values ← evalAll scope (k + 1) es
    return value :: values

/-- Evaluates the body of a closure where its parameters are bound to the arguments. -/
def Closure.apply (c : Closure) (site : Site) (arguments : List Value) (span : Span) :
    Except EvalError Value :=
  if c.lambda.parameters.length = arguments.length then
    let scope : Scope := ⟨c.program, site, c.env⟩
    let bindings := (c.lambda.parameters.map (·.text)).zip arguments
    eval ((scope.bindAll 0 bindings).part 0) c.lambda.body
  else .error ⟨.arity c.lambda.parameters.length arguments.length, span⟩

/-- Applies a closure to the value so far and each item in turn. -/
def foldFrom (c : Closure) (site : Site) (span : Span) (k : Nat) (acc : Value) :
    List (Value × Value) → Except EvalError Value
  | [] => .ok acc
  | (index, item) :: others => do
    let acc ← c.apply eval (k :: site) [acc, index, item] span
    foldFrom c site span (k + 1) acc others

def foldValues (site : Site) (arguments : List Value) (span : Span) : Except EvalError Value :=
  match arguments with
  | [acc, .closure c, collection] =>
    match foldSteps? collection with
    | some steps => foldFrom eval c site span 0 acc steps
    | none => .error ⟨.mismatch .collection collection.kind, span⟩
  | [_, function, _] => .error ⟨.mismatch .function function.kind, span⟩
  | arguments => .error ⟨.arity 3 arguments.length, span⟩

def Builtin.call (b : Builtin) (site : Site) (arguments : List Value) (span : Span) :
    Except EvalError Value :=
  match b with
  | .concat => EvalFault.at span (concatValues arguments)
  | .merge => EvalFault.at span (mergeValues arguments)
  | .fold => foldValues eval site arguments span

/-- The built-in function that a callee stands for: a name that is not bound. -/
def builtin? (env : Env) : Expr → Option Builtin
  | .name n => if (env.lookup? n.text).isNone then Builtin.ofName? n.text else none
  | _ => none

/-- Binds names in order, each value evaluated where the names before it are bound, and gives the
scope in which all are. -/
def evalBindings (scope : Scope) (k : Nat) : List Binding → Except EvalError (Nat × Scope)
  | [] => .ok (k, scope)
  | b :: bs => do
    let value ← eval (scope.part k) b.value
    evalBindings (scope.bind k b.name.text value) (k + 1) bs

def evalFields (scope : Scope) (k : Nat) : List Entry → Except EvalError (List Field)
  | [] => .ok []
  | e :: es => do
    let value ← eval (scope.part k) e.value
    let fields ← evalFields scope (k + 1) es
    return ⟨e.key.text, value⟩ :: fields

/-- Where the second entry with a key has it. -/
def Entry.second? (key : String) (entries : List Entry) : Option Span :=
  ((entries.map (·.key)).filter (·.text == key))[1]?.map (·.span)

/-- A map needs the values of all its entries before its keys are compared. A key that appears twice
is shown at its second entry, or at the whole literal for want of one. -/
def evalMap (scope : Scope) (entries : List Entry) (span : Span) : Except EvalError Value := do
  let fields ← evalFields eval scope 0 entries
  match Value.ofFields fields with
  | .ok map => .ok map
  | .error key => .error ⟨.duplicateKey key, (Entry.second? key entries).getD span⟩

/-- The text of a string, its code replaced by the text of its value. -/
def evalSegments (scope : Scope) (k : Nat) : List Segment → Except EvalError String
  | [] => .ok ""
  | .text text :: others => do
    let rest ← evalSegments scope (k + 1) others
    return text ++ rest
  | .code e :: others => do
    let value ← eval (scope.part k) e
    match value.interpolated? with
    | none => .error ⟨.notInterpolable value.kind, e.span⟩
    | some text =>
      let rest ← evalSegments scope (k + 1) others
      return text ++ rest

/-- The call of a callee that is no built-in function. -/
def evalCall (scope : Scope) (callee : Expr) (arguments : List Expr) (span : Span) :
    Except EvalError Value := do
  match ← eval (scope.part 0) callee with
  | .closure c =>
    let values ← evalAll eval scope 1 arguments
    c.apply eval ((arguments.length + 1) :: scope.site) values span
  | other => .error ⟨.notCallable other.kind, callee.span⟩

end

/-- The field of a map. -/
def accessMember (receiver : Value) (name : Name) : Except EvalError Value :=
  match receiver with
  | .map fields =>
    match Field.get? fields name.text with
    | some value => .ok value
    | none => .error ⟨.missingKey name.text, name.span⟩
  | other => .error ⟨.noMethod name.text other.kind, name.span⟩

/-- A method call runs a function in a map or a method of a string. -/
def callMethod (eval : Evaluator) (site : Site) (receiver : Value) (name : Name)
    (arguments : List Value) (span : Span) : Except EvalError Value :=
  match receiver with
  | .map fields =>
    match Field.get? fields name.text with
    | some (.closure c) => c.apply eval site arguments span
    | some other => .error ⟨.notCallable other.kind, name.span⟩
    | none => .error ⟨.noMethod name.text .map, name.span⟩
  | .string text =>
    match Method.ofName? name.text with
    | some method => EvalFault.at span (method.call text arguments)
    | none => .error ⟨.noMethod name.text .string, name.span⟩
  | other => .error ⟨.noMethod name.text other.kind, name.span⟩

/-- An item of a list by its position from zero. -/
def itemAt? (items : List Value) (index : Int64) : Option Value :=
  if index.toInt < 0 then none else items[index.toInt.toNat]?

def accessIndex (receiver key : Value) (receiverSpan keySpan : Span) : Except EvalError Value :=
  match receiver, key with
  | .map fields, .string key =>
    match Field.get? fields key with
    | some value => .ok value
    | none => .error ⟨.missingKey key, keySpan⟩
  | .map _, other => .error ⟨.mismatch .stringKey other.kind, keySpan⟩
  | .list items, .int index =>
    match itemAt? items index with
    | some value => .ok value
    | none => .error ⟨.outOfBounds index items.length, keySpan⟩
  | .list _, other => .error ⟨.mismatch .integerIndex other.kind, keySpan⟩
  | other, _ => .error ⟨.mismatch .indexable other.kind, receiverSpan⟩

/-- The value of an expression from the values of its parts. -/
def Expr.step (eval : Evaluator) (scope : Scope) : Expr → Except EvalError Value
  | .int value _ => .ok (.int value)
  | .float value _ => .ok (.float value)
  | .bool value _ => .ok (.bool value)
  | .template segments _ => do
    let text ← evalSegments eval scope 0 segments
    return .string text
  | .name n =>
    match scope.env.lookup? n.text with
    | some value => .ok value
    | none => .error ⟨.unbound n.text, n.span⟩
  | .letIn bindings body _ => do
    let (k, inner) ← evalBindings eval scope 0 bindings
    eval (inner.part k) body
  | .lambda parameters body span =>
    .ok (.closure ⟨⟨parameters, body, span⟩, scope.program, scope.env⟩)
  | .apply callee arguments span =>
    match builtin? scope.env callee with
    | some b => do
      let values ← evalAll eval scope 0 arguments
      b.call eval (arguments.length :: scope.site) values span
    | none => evalCall eval scope callee arguments span
  | .map entries span => evalMap eval scope entries span
  | .list items _ => do
    let values ← evalAll eval scope 0 items
    return .list values
  | .member receiver n _ => do
    let value ← eval (scope.part 0) receiver
    accessMember value n
  | .method receiver n arguments span => do
    let value ← eval (scope.part 0) receiver
    let values ← evalAll eval scope 1 arguments
    callMethod eval ((arguments.length + 1) :: scope.site) value n values span
  | .index receiver key _ => do
    let value ← eval (scope.part 0) receiver
    let position ← eval (scope.part 1) key
    accessIndex value position receiver.span key.span

/-- The value of an expression, with at most `depth` evaluations nested in one another. The error of
one that nests more deeply names the `limit`. -/
def Expr.eval (limit : Nat) : Nat → Evaluator
  | 0 => fun _ e => .error ⟨.tooDeep limit, e.span⟩
  | depth + 1 => Expr.step (Expr.eval limit depth)

end ConfigExpr
