import ConfigExpr.Program.Run

/-!
# Evaluation with a counter

An evaluator counts the evaluations it is in: the count is raised before each and lowered after it,
also where it fails. Here the counter is state that the evaluations pass on, in place of the depth
that `Expr.eval` is given, and with it goes the list of the sites at which frames have been made.
-/

namespace ConfigExpr

/-- What an evaluator keeps: the number of evaluations it is in, and the sites of the frames made so
far, the last one first. -/
structure Counter where
  depth : Nat
  frames : List Site

abbrev Counted := ExceptT EvalError (StateM Counter)

namespace Counted

abbrev Evaluator := Scope → Expr → Counted Value

def done {α : Type} (outcome : Except EvalError α) : Counted α :=
  ExceptT.mk (pure outcome)

/-- Makes the frame of one binding. -/
def bindOne (scope : Scope) (k : Nat) (name : String) (value : Value) : Counted Scope := do
  modify fun s => { s with frames := (k :: scope.site) :: s.frames }
  return scope.bind k name value

def bindAll (scope : Scope) (k : Nat) : List (String × Value) → Counted Scope
  | [] => return scope
  | (name, value) :: others => do
    let scope ← bindOne scope k name value
    bindAll scope (k + 1) others

section

variable (eval : Evaluator)

def evalAll (scope : Scope) (k : Nat) : List Expr → Counted (List Value)
  | [] => return []
  | e :: es => do
    let value ← eval (scope.part k) e
    let values ← evalAll scope (k + 1) es
    return value :: values

def apply (c : Closure) (site : Site) (arguments : List Value) (span : Span) : Counted Value :=
  if c.lambda.parameters.length = arguments.length then do
    let bindings := (c.lambda.parameters.map (·.text)).zip arguments
    let scope ← bindAll ⟨c.program, site, c.env⟩ 0 bindings
    eval (scope.part 0) c.lambda.body
  else throw ⟨.arity c.lambda.parameters.length arguments.length, span⟩

def foldFrom (c : Closure) (site : Site) (span : Span) (k : Nat) (acc : Value) :
    List (Value × Value) → Counted Value
  | [] => return acc
  | (index, item) :: others => do
    let acc ← apply eval c (k :: site) [acc, index, item] span
    foldFrom c site span (k + 1) acc others

def foldValues (site : Site) (arguments : List Value) (span : Span) : Counted Value :=
  match arguments with
  | [acc, .closure c, collection] =>
    match foldSteps? collection with
    | some steps => foldFrom eval c site span 0 acc steps
    | none => throw ⟨.mismatch .collection collection.kind, span⟩
  | [_, function, _] => throw ⟨.mismatch .function function.kind, span⟩
  | arguments => throw ⟨.arity 3 arguments.length, span⟩

def call (b : Builtin) (site : Site) (arguments : List Value) (span : Span) : Counted Value :=
  match b with
  | .concat => done (EvalFault.at span (concatValues arguments))
  | .merge => done (EvalFault.at span (mergeValues arguments))
  | .fold => foldValues eval site arguments span

def evalBindings (scope : Scope) (k : Nat) : List Binding → Counted (Nat × Scope)
  | [] => return (k, scope)
  | b :: bs => do
    let value ← eval (scope.part k) b.value
    let scope ← bindOne scope k b.name.text value
    evalBindings scope (k + 1) bs

def evalFields (scope : Scope) (k : Nat) : List Entry → Counted (List Field)
  | [] => return []
  | e :: es => do
    let value ← eval (scope.part k) e.value
    let fields ← evalFields scope (k + 1) es
    return ⟨e.key.text, value⟩ :: fields

def evalMap (scope : Scope) (entries : List Entry) (span : Span) : Counted Value := do
  let fields ← evalFields eval scope 0 entries
  match Value.ofFields fields with
  | .ok map => return map
  | .error key => throw ⟨.duplicateKey key, (Entry.second? key entries).getD span⟩

def evalSegments (scope : Scope) (k : Nat) : List Segment → Counted String
  | [] => return ""
  | .text text :: others => do
    let rest ← evalSegments scope (k + 1) others
    return text ++ rest
  | .code e :: others => do
    let value ← eval (scope.part k) e
    match value.interpolated? with
    | none => throw ⟨.notInterpolable value.kind, e.span⟩
    | some text =>
      let rest ← evalSegments scope (k + 1) others
      return text ++ rest

def evalCall (scope : Scope) (callee : Expr) (arguments : List Expr) (span : Span) :
    Counted Value := do
  match ← eval (scope.part 0) callee with
  | .closure c =>
    let values ← evalAll eval scope 1 arguments
    apply eval c ((arguments.length + 1) :: scope.site) values span
  | other => throw ⟨.notCallable other.kind, callee.span⟩

def callMethod (site : Site) (receiver : Value) (name : Name) (arguments : List Value)
    (span : Span) : Counted Value :=
  match receiver with
  | .map fields =>
    match Field.get? fields name.text with
    | some (.closure c) => apply eval c site arguments span
    | some other => throw ⟨.notCallable other.kind, name.span⟩
    | none => throw ⟨.noMethod name.text .map, name.span⟩
  | .string text =>
    match Method.ofName? name.text with
    | some method => done (EvalFault.at span (method.call text arguments))
    | none => throw ⟨.noMethod name.text .string, name.span⟩
  | other => throw ⟨.noMethod name.text other.kind, name.span⟩

def step (scope : Scope) : Expr → Counted Value
  | .int value _ => return .int value
  | .float value _ => return .float value
  | .bool value _ => return .bool value
  | .template segments _ => do
    let text ← evalSegments eval scope 0 segments
    return .string text
  | .name n =>
    match scope.env.lookup? n.text with
    | some value => return value
    | none => throw ⟨.unbound n.text, n.span⟩
  | .letIn bindings body _ => do
    let (k, inner) ← evalBindings eval scope 0 bindings
    eval (inner.part k) body
  | .lambda parameters body span =>
    return .closure ⟨⟨parameters, body, span⟩, scope.program, scope.env⟩
  | .apply callee arguments span =>
    match builtin? scope.env callee with
    | some b => do
      let values ← evalAll eval scope 0 arguments
      call eval b (arguments.length :: scope.site) values span
    | none => evalCall eval scope callee arguments span
  | .map entries span => evalMap eval scope entries span
  | .list items _ => do
    let values ← evalAll eval scope 0 items
    return .list values
  | .member receiver n _ => do
    let value ← eval (scope.part 0) receiver
    done (accessMember value n)
  | .method receiver n arguments span => do
    let value ← eval (scope.part 0) receiver
    let values ← evalAll eval scope 1 arguments
    callMethod eval ((arguments.length + 1) :: scope.site) value n values span
  | .index receiver key _ => do
    let value ← eval (scope.part 0) receiver
    let position ← eval (scope.part 1) key
    done (accessIndex value position receiver.span key.span)

end

/-- Counts an evaluation while it goes on, whatever it comes to. -/
def nested {α : Type} (x : Counted α) : Counted α := do
  modify fun s => { s with depth := s.depth + 1 }
  let outcome ← ExceptT.lift x.run
  modify fun s => { s with depth := s.depth - 1 }
  done outcome

/-- The evaluator that fails where the count is at the limit. Its recursion has fuel, which lasts
where the limit is no more than the fuel and the count together. -/
def eval (limit : Nat) : Nat → Evaluator
  | 0 => fun _ e => throw ⟨.tooDeep limit, e.span⟩
  | fuel + 1 => fun scope e => do
    if limit ≤ (← get).depth then throw ⟨.tooDeep limit, e.span⟩
    else nested (step (eval limit fuel) scope e)

/-- The value of a program in an environment. -/
def evaluateIn (p : Program) (run : Run) (env : Env) (limit : Nat) : Counted Value :=
  eval limit limit ⟨run.program, [0, run.number], env⟩ p.expression

/-- Applies the closure that a program ends in, each parameter to the argument of its name. -/
def finish (p : Program) (run : Run) (env : Env) (limit : Nat) : Value → Counted Value
  | .closure c => do
    let values ← done (Program.parameterValues env c.lambda.parameters)
    apply (eval limit limit) c [1, run.number] values p.expression.span
  | value => return value

/-- The value of a program with arguments. The count is at zero again where the closure that the
program ends in is applied. -/
def evaluateWith (p : Program) (run : Run) (arguments : List (String × Value)) (limit : Nat) :
    Counted Value := do
  let scope ← bindAll ⟨run.program, [run.number], []⟩ 0 arguments
  let value ← evaluateIn p run scope.env limit
  finish p run scope.env limit value

end Counted

end ConfigExpr
