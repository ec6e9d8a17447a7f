import ConfigExpr.Eval.Evaluator
import Mathlib.Data.List.Infix

/-!
# The rules of evaluation

What the value of an expression is, as a relation: one rule for each form, none for a failure.
`Evaluates n scope e v` says that `e` has the value `v` by a derivation of depth `n`, which counts
one more than the deepest evaluation it contains; the other relations have the depth of their
deepest evaluation, or zero where there is none.
-/

namespace ConfigExpr

/-- The fields of several maps as one map: a key stands where it stands first and has the value it
has last. -/
def Field.merged (fields : List Field) : List Field :=
  (fields.map (·.key)).eraseDups.filterMap fun key =>
    (get? fields.reverse key).map fun value => ⟨key, value⟩

/-- The value of a method of a string. -/
inductive StringMethod (text : String) : String → List Value → Value → Prop where
  | unindent :
    StringMethod text "unindent" [] (.string (String.ofList (Text.unindent text.toList)))
  | trim : StringMethod text "trim" [] (.string (String.ofList (Text.trim text.toList)))
  | lines :
    StringMethod text "lines" []
      (.list ((Text.lines text.toList).map fun line => .string (String.ofList line)))
  | contains (part : String) :
    StringMethod text "contains" [.string part] (.bool (decide (part.toList <:+: text.toList)))
  | startsWith (part : String) :
    StringMethod text "starts_with" [.string part] (.bool (decide (part.toList <+: text.toList)))
  | endsWith (part : String) :
    StringMethod text "ends_with" [.string part] (.bool (decide (part.toList <:+ text.toList)))

mutual

inductive Evaluates : Nat → Scope → Expr → Value → Prop where
  | int {scope : Scope} {v : Int64} {s : Span} : Evaluates 1 scope (.int v s) (.int v)
  | float {scope : Scope} {v : Binary64} {s : Span} : Evaluates 1 scope (.float v s) (.float v)
  | bool {scope : Scope} {v : Bool} {s : Span} : Evaluates 1 scope (.bool v s) (.bool v)
  | template {n : Nat} {scope : Scope} {segments : List Segment} {s : Span} {text : String} :
    EvaluatesSegments n scope 0 segments text →
    Evaluates (n + 1) scope (.template segments s) (.string text)
  | name {scope : Scope} {x : Name} {v : Value} :
    scope.env.lookup? x.text = some v → Evaluates 1 scope (.name x) v
  | letIn {n m k : Nat} {scope inner : Scope} {bindings : List Binding} {body : Expr} {s : Span}
    {v : Value} :
    Binds n scope 0 bindings k inner → Evaluates m (inner.part k) body v →
    Evaluates (max n m + 1) scope (.letIn bindings body s) v
  /-- A closure holds the scope of its definition. -/
  | lambda {scope : Scope} {parameters : List Name} {body : Expr} {s : Span} :
    Evaluates 1 scope (.lambda parameters body s)
      (.closure ⟨⟨parameters, body, s⟩, scope.program, scope.env⟩)
  | apply {n m k : Nat} {scope : Scope} {callee : Expr} {arguments : List Expr} {s : Span}
    {c : Closure} {values : List Value} {v : Value} :
    Evaluates n (scope.part 0) callee (.closure c) → EvaluatesAll m scope 1 arguments values →
    Runs k c ((arguments.length + 1) :: scope.site) values v →
    Evaluates (max n (max m k) + 1) scope (.apply callee arguments s) v
  | concat {n : Nat} {scope : Scope} {x : Name} {arguments : List Expr} {s : Span}
    {lists : List (List Value)} :
    x.text = "concat" → scope.env.lookup? x.text = none →
    EvaluatesAll n scope 0 arguments (lists.map .list) → lists ≠ [] →
    Evaluates (n + 1) scope (.apply (.name x) arguments s) (.list lists.flatten)
  | merge {n : Nat} {scope : Scope} {x : Name} {arguments : List Expr} {s : Span}
    {maps : List (List Field)} :
    x.text = "merge" → scope.env.lookup? x.text = none →
    EvaluatesAll n scope 0 arguments (maps.map .map) → maps ≠ [] →
    Evaluates (n + 1) scope (.apply (.name x) arguments s) (.map (Field.merged maps.flatten))
  /-- The maps may also be the items of one list. -/
  | mergeList {n : Nat} {scope : Scope} {x : Name} {arguments : List Expr} {s : Span}
    {maps : List (List Field)} :
    x.text = "merge" → scope.env.lookup? x.text = none →
    EvaluatesAll n scope 0 arguments [.list (maps.map .map)] →
    Evaluates (n + 1) scope (.apply (.name x) arguments s) (.map (Field.merged maps.flatten))
  /-- An item of a list is folded with its position. -/
  | foldList {n m : Nat} {scope : Scope} {x : Name} {arguments : List Expr} {s : Span}
    {first v : Value} {c : Closure} {items : List Value} :
    x.text = "fold" → scope.env.lookup? x.text = none →
    EvaluatesAll n scope 0 arguments [first, .closure c, .list items] →
    Folds m c (arguments.length :: scope.site) 0 first
      (items.zipIdx.map fun (item, i) => (.int (Int64.ofNat i), item)) v →
    Evaluates (max n m + 1) scope (.apply (.name x) arguments s) v
  /-- The value of a field is folded with its key. -/
  | foldMap {n m : Nat} {scope : Scope} {x : Name} {arguments : List Expr} {s : Span}
    {first v : Value} {c : Closure} {fields : List Field} :
    x.text = "fold" → scope.env.lookup? x.text = none →
    EvaluatesAll n scope 0 arguments [first, .closure c, .map fields] →
    Folds m c (arguments.length :: scope.site) 0 first
      (fields.map fun f => (.string f.key, f.value)) v →
    Evaluates (max n m + 1) scope (.apply (.name x) arguments s) v
  | map {n : Nat} {scope : Scope} {entries : List Entry} {s : Span} {fields : List Field} :
    EvaluatesEntries n scope 0 entries fields → (fields.map (·.key)).Nodup →
    Evaluates (n + 1) scope (.map entries s) (.map fields)
  | list {n : Nat} {scope : Scope} {items : List Expr} {s : Span} {values : List Value} :
    EvaluatesAll n scope 0 items values → Evaluates (n + 1) scope (.list items s) (.list values)
  | member {n : Nat} {scope : Scope} {receiver : Expr} {x : Name} {s : Span}
    {fields : List Field} {v : Value} :
    Evaluates n (scope.part 0) receiver (.map fields) → Field.get? fields x.text = some v →
    Evaluates (n + 1) scope (.member receiver x s) v
  | mapMethod {n m k : Nat} {scope : Scope} {receiver : Expr} {x : Name} {arguments : List Expr}
    {s : Span} {fields : List Field} {values : List Value} {c : Closure} {v : Value} :
    Evaluates n (scope.part 0) receiver (.map fields) →
    EvaluatesAll m scope 1 arguments values → Field.get? fields x.text = some (.closure c) →
    Runs k c ((arguments.length + 1) :: scope.site) values v →
    Evaluates (max n (max m k) + 1) scope (.method receiver x arguments s) v
  | stringMethod {n m : Nat} {scope : Scope} {receiver : Expr} {x : Name}
    {arguments : List Expr} {s : Span} {text : String} {values : List Value} {v : Value} :
    Evaluates n (scope.part 0) receiver (.string text) →
    EvaluatesAll m scope 1 arguments values → StringMethod text x.text values v →
    Evaluates (max n m + 1) scope (.method receiver x arguments s) v
  | indexMap {n m : Nat} {scope : Scope} {receiver key : Expr} {s : Span} {fields : List Field}
    {text : String} {v : Value} :
    Evaluates n (scope.part 0) receiver (.map fields) →
    Evaluates m (scope.part 1) key (.string text) → Field.get? fields text = some v →
    Evaluates (max n m + 1) scope (.index receiver key s) v
  | indexList {n m k : Nat} {scope : Scope} {receiver key : Expr} {s : Span}
    {items : List Value} {position : Int64} {v : Value} :
    Evaluates n (scope.part 0) receiver (.list items) →
    Evaluates m (scope.part 1) key (.int position) → position.toInt = k → items[k]? = some v →
    Evaluates (max n m + 1) scope (.index receiver key s) v

/-- The values of expressions from left to right; the first is part `k` of its scope. -/
inductive EvaluatesAll : Nat → Scope → Nat → List Expr → List Value → Prop where
  | nil {scope : Scope} {k : Nat} : EvaluatesAll 0 scope k [] []
  | cons {n m : Nat} {scope : Scope} {k : Nat} {e : Expr} {es : List Expr} {v : Value}
    {vs : List Value} :
    Evaluates n (scope.part k) e v → EvaluatesAll m scope (k + 1) es vs →
    EvaluatesAll (max n m) scope k (e :: es) (v :: vs)

/-- The body of a closure runs in the scope it holds, its parameters bound in order. -/
inductive Runs : Nat → Closure → Site → List Value → Value → Prop where
  | body {n : Nat} {c : Closure} {site : Site} {arguments : List Value} {v : Value} :
    c.lambda.parameters.length = arguments.length →
    Evaluates n (((⟨c.program, site, c.env⟩ : Scope).bindAll 0
      ((c.lambda.parameters.map (·.text)).zip arguments)).part 0) c.lambda.body v →
    Runs n c site arguments v

/-- A closure is run with the value so far and each pair in turn. -/
inductive Folds : Nat → Closure → Site → Nat → Value → List (Value × Value) → Value → Prop where
  | nil {c : Closure} {site : Site} {k : Nat} {v : Value} : Folds 0 c site k v [] v
  | cons {n m : Nat} {c : Closure} {site : Site} {k : Nat} {first next index item v : Value}
    {others : List (Value × Value)} :
    Runs n c (k :: site) [first, index, item] next → Folds m c site (k + 1) next others v →
    Folds (max n m) c site k first ((index, item) :: others) v

/-- Each binding sees those before it. -/
inductive Binds : Nat → Scope → Nat → List Binding → Nat → Scope → Prop where
  | nil {scope : Scope} {k : Nat} : Binds 0 scope k [] k scope
  | cons {n m : Nat} {scope inner : Scope} {k l : Nat} {b : Binding} {bs : List Binding}
    {v : Value} :
    Evaluates n (scope.part k) b.value v →
    Binds m (scope.bind k b.name.text v) (k + 1) bs l inner →
    Binds (max n m) scope k (b :: bs) l inner

inductive EvaluatesEntries : Nat → Scope → Nat → List Entry → List Field → Prop where
  | nil {scope : Scope} {k : Nat} : EvaluatesEntries 0 scope k [] []
  | cons {n m : Nat} {scope : Scope} {k : Nat} {e : Entry} {es : List Entry} {v : Value}
    {fields : List Field} :
    Evaluates n (scope.part k) e.value v → EvaluatesEntries m scope (k + 1) es fields →
    EvaluatesEntries (max n m) scope k (e :: es) (⟨e.key.text, v⟩ :: fields)

inductive EvaluatesSegments : Nat → Scope → Nat → List Segment → String → Prop where
  | nil {scope : Scope} {k : Nat} : EvaluatesSegments 0 scope k [] ""
  | text {n : Nat} {scope : Scope} {k : Nat} {text rest : String} {ss : List Segment} :
    EvaluatesSegments n scope (k + 1) ss rest →
    EvaluatesSegments n scope k (.text text :: ss) (text ++ rest)
  | code {n m : Nat} {scope : Scope} {k : Nat} {e : Expr} {v : Value} {text rest : String}
    {ss : List Segment} :
    Evaluates n (scope.part k) e v → v.interpolated? = some text →
    EvaluatesSegments m scope (k + 1) ss rest →
    EvaluatesSegments (max n m) scope k (.code e :: ss) (text ++ rest)

end

end ConfigExpr
