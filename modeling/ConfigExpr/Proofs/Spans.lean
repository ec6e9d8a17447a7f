import ConfigExpr.Expr.Basic

/-!
# Up to positions

Tokens and expressions carry the places they were read from. `mapSpans` moves all of these places,
those inside strings too, and `unplaced` forgets them, so that `Alike` expressions differ in
positions only.
-/

namespace ConfigExpr

/-- The place of what was not read from a source. -/
def Span.nowhere : Span := .point 0

mutual

def Token.mapSpans (f : Span → Span) : Token → Token
  | .string parts => .string (StringPart.mapSpansAll f parts)
  | t => t
termination_by structural t => t

def StringPart.mapSpans (f : Span → Span) : StringPart → StringPart
  | .text s => .text s
  | .code tokens => .code (Spanned.mapSpansAll f tokens)
termination_by structural p => p

def StringPart.mapSpansAll (f : Span → Span) : List StringPart → List StringPart
  | [] => []
  | p :: ps => p.mapSpans f :: StringPart.mapSpansAll f ps
termination_by structural ps => ps

def Spanned.mapSpans (f : Span → Span) : Spanned → Spanned
  | ⟨t, s⟩ => ⟨t.mapSpans f, f s⟩
termination_by structural t => t

def Spanned.mapSpansAll (f : Span → Span) : List Spanned → List Spanned
  | [] => []
  | t :: ts => t.mapSpans f :: Spanned.mapSpansAll f ts
termination_by structural ts => ts

end

def Name.mapSpan (f : Span → Span) (n : Name) : Name :=
  ⟨n.text, f n.span⟩

mutual

def Expr.mapSpans (f : Span → Span) : Expr → Expr
  | .int v s => .int v (f s)
  | .float v s => .float v (f s)
  | .bool v s => .bool v (f s)
  | .template segments s => .template (Segment.mapSpansAll f segments) (f s)
  | .name n => .name (n.mapSpan f)
  | .letIn bindings body s => .letIn (Binding.mapSpansAll f bindings) (body.mapSpans f) (f s)
  | .lambda parameters body s => .lambda (parameters.map (·.mapSpan f)) (body.mapSpans f) (f s)
  | .apply callee arguments s => .apply (callee.mapSpans f) (Expr.mapSpansAll f arguments) (f s)
  | .map entries s => .map (Entry.mapSpansAll f entries) (f s)
  | .list items s => .list (Expr.mapSpansAll f items) (f s)
  | .member receiver n s => .member (receiver.mapSpans f) (n.mapSpan f) (f s)
  | .method receiver n arguments s =>
    .method (receiver.mapSpans f) (n.mapSpan f) (Expr.mapSpansAll f arguments) (f s)
  | .index receiver key s => .index (receiver.mapSpans f) (key.mapSpans f) (f s)
termination_by structural e => e

def Expr.mapSpansAll (f : Span → Span) : List Expr → List Expr
  | [] => []
  | e :: es => e.mapSpans f :: Expr.mapSpansAll f es
termination_by structural es => es

def Segment.mapSpans (f : Span → Span) : Segment → Segment
  | .text s => .text s
  | .code e => .code (e.mapSpans f)
termination_by structural s => s

def Segment.mapSpansAll (f : Span → Span) : List Segment → List Segment
  | [] => []
  | s :: ss => s.mapSpans f :: Segment.mapSpansAll f ss
termination_by structural ss => ss

def Binding.mapSpans (f : Span → Span) : Binding → Binding
  | ⟨n, e⟩ => ⟨n.mapSpan f, e.mapSpans f⟩
termination_by structural b => b

def Binding.mapSpansAll (f : Span → Span) : List Binding → List Binding
  | [] => []
  | b :: bs => b.mapSpans f :: Binding.mapSpansAll f bs
termination_by structural bs => bs

def Entry.mapSpans (f : Span → Span) : Entry → Entry
  | ⟨n, e⟩ => ⟨n.mapSpan f, e.mapSpans f⟩
termination_by structural e => e

def Entry.mapSpansAll (f : Span → Span) : List Entry → List Entry
  | [] => []
  | e :: es => e.mapSpans f :: Entry.mapSpansAll f es
termination_by structural es => es

end

/-- A name that was not read from a source. -/
def Name.of (text : String) : Name := ⟨text, .nowhere⟩

def Token.unplaced (t : Token) : Token := t.mapSpans fun _ => .nowhere

def Name.unplaced (n : Name) : Name := n.mapSpan fun _ => .nowhere

def Expr.unplaced (e : Expr) : Expr := e.mapSpans fun _ => .nowhere

def Segment.unplaced (s : Segment) : Segment := s.mapSpans fun _ => .nowhere

def Binding.unplaced (b : Binding) : Binding := b.mapSpans fun _ => .nowhere

def Entry.unplaced (e : Entry) : Entry := e.mapSpans fun _ => .nowhere

/-- Equality up to positions. -/
def Expr.Alike (a b : Expr) : Prop := a.unplaced = b.unplaced

section

variable (f : Span → Span)

theorem StringPart.mapSpansAll_eq_map :
    ∀ ps : List StringPart, StringPart.mapSpansAll f ps = ps.map (·.mapSpans f)
  | [] => rfl
  | p :: ps => congrArg (p.mapSpans f :: ·) (mapSpansAll_eq_map ps)

theorem Spanned.mapSpansAll_eq_map :
    ∀ ts : List Spanned, Spanned.mapSpansAll f ts = ts.map (·.mapSpans f)
  | [] => rfl
  | t :: ts => congrArg (t.mapSpans f :: ·) (mapSpansAll_eq_map ts)

theorem Expr.mapSpansAll_eq_map :
    ∀ es : List Expr, Expr.mapSpansAll f es = es.map (·.mapSpans f)
  | [] => rfl
  | e :: es => congrArg (e.mapSpans f :: ·) (mapSpansAll_eq_map es)

theorem Segment.mapSpansAll_eq_map :
    ∀ ss : List Segment, Segment.mapSpansAll f ss = ss.map (·.mapSpans f)
  | [] => rfl
  | s :: ss => congrArg (s.mapSpans f :: ·) (mapSpansAll_eq_map ss)

theorem Binding.mapSpansAll_eq_map :
    ∀ bs : List Binding, Binding.mapSpansAll f bs = bs.map (·.mapSpans f)
  | [] => rfl
  | b :: bs => congrArg (b.mapSpans f :: ·) (mapSpansAll_eq_map bs)

theorem Entry.mapSpansAll_eq_map :
    ∀ es : List Entry, Entry.mapSpansAll f es = es.map (·.mapSpans f)
  | [] => rfl
  | e :: es => congrArg (e.mapSpans f :: ·) (mapSpansAll_eq_map es)

theorem Expr.span_mapSpans (e : Expr) : (e.mapSpans f).span = f e.span := by
  cases e <;> rfl

theorem Expr.length_mapSpansAll (es : List Expr) :
    (Expr.mapSpansAll f es).length = es.length := by
  rw [Expr.mapSpansAll_eq_map, List.length_map]

theorem Name.map_text_mapSpan (names : List Name) :
    (names.map (·.mapSpan f)).map (·.text) = names.map (·.text) := by
  rw [List.map_map]
  rfl

theorem Entry.map_key_mapSpans (entries : List Entry) :
    (Entry.mapSpansAll f entries).map (·.key) = (entries.map (·.key)).map (·.mapSpan f) := by
  rw [Entry.mapSpansAll_eq_map, List.map_map, List.map_map]
  exact List.map_congr_left fun e _ => by cases e; rfl

theorem Name.repeated?_map_mapSpan (seen : List String) (names : List Name) :
    Name.repeated? seen (names.map (·.mapSpan f)) =
      (Name.repeated? seen names).map (·.mapSpan f) := by
  induction names generalizing seen with
  | nil => rfl
  | cons n names ih =>
    simp only [List.map_cons, Name.repeated?, Name.mapSpan]
    split
    · rfl
    · exact ih _

end

@[simp] theorem Name.unplaced_mk (text : String) (s : Span) :
    Name.unplaced ⟨text, s⟩ = .of text := rfl

theorem Name.unplaced_eq (n : Name) : n.unplaced = .of n.text := rfl

theorem Name.map_unplaced (names : List Name) :
    names.map unplaced = (names.map (·.text)).map .of := by
  rw [List.map_map]
  rfl

@[simp] theorem Name.of_text (text : String) : (Name.of text).text = text := rfl

@[simp] theorem Name.unplaced_text (n : Name) : n.unplaced.text = n.text := rfl

@[simp] theorem Segment.unplaced_text (s : String) : (Segment.text s).unplaced = .text s := rfl

@[simp] theorem Segment.unplaced_code (e : Expr) :
    (Segment.code e).unplaced = .code e.unplaced := rfl

@[simp] theorem Binding.unplaced_mk (n : Name) (e : Expr) :
    Binding.unplaced ⟨n, e⟩ = ⟨n.unplaced, e.unplaced⟩ := rfl

@[simp] theorem Entry.unplaced_mk (n : Name) (e : Expr) :
    Entry.unplaced ⟨n, e⟩ = ⟨n.unplaced, e.unplaced⟩ := rfl

@[simp] theorem Binding.unplaced_name (b : Binding) : b.unplaced.name = b.name.unplaced := by
  cases b
  rfl

@[simp] theorem Binding.unplaced_value (b : Binding) : b.unplaced.value = b.value.unplaced := by
  cases b
  rfl

@[simp] theorem Entry.unplaced_key (e : Entry) : e.unplaced.key = e.key.unplaced := by
  cases e
  rfl

@[simp] theorem Entry.unplaced_value (e : Entry) : e.unplaced.value = e.value.unplaced := by
  cases e
  rfl

namespace Expr

variable (s : Span)

@[simp] theorem unplaced_int (v : Int64) : (int v s).unplaced = .int v .nowhere := rfl

@[simp] theorem unplaced_float (v : Binary64) : (float v s).unplaced = .float v .nowhere := rfl

@[simp] theorem unplaced_bool (v : Bool) : (bool v s).unplaced = .bool v .nowhere := rfl

@[simp] theorem unplaced_template (segments : List Segment) :
    (template segments s).unplaced = .template (segments.map Segment.unplaced) .nowhere := by
  simp only [unplaced, mapSpans, Segment.mapSpansAll_eq_map]
  rfl

@[simp] theorem unplaced_name (n : Name) : (name n).unplaced = .name n.unplaced := rfl

@[simp] theorem unplaced_letIn (bindings : List Binding) (body : Expr) :
    (letIn bindings body s).unplaced =
      .letIn (bindings.map Binding.unplaced) body.unplaced .nowhere := by
  simp only [unplaced, mapSpans, Binding.mapSpansAll_eq_map]
  rfl

@[simp] theorem unplaced_lambda (parameters : List Name) (body : Expr) :
    (lambda parameters body s).unplaced =
      .lambda (parameters.map Name.unplaced) body.unplaced .nowhere := rfl

@[simp] theorem unplaced_apply (callee : Expr) (arguments : List Expr) :
    (apply callee arguments s).unplaced =
      .apply callee.unplaced (arguments.map unplaced) .nowhere := by
  simp only [unplaced, mapSpans, mapSpansAll_eq_map]
  rfl

@[simp] theorem unplaced_map (entries : List Entry) :
    (map entries s).unplaced = .map (entries.map Entry.unplaced) .nowhere := by
  simp only [unplaced, mapSpans, Entry.mapSpansAll_eq_map]
  rfl

@[simp] theorem unplaced_list (items : List Expr) :
    (list items s).unplaced = .list (items.map unplaced) .nowhere := by
  simp only [unplaced, mapSpans, mapSpansAll_eq_map]
  rfl

@[simp] theorem unplaced_member (receiver : Expr) (n : Name) :
    (member receiver n s).unplaced = .member receiver.unplaced n.unplaced .nowhere := rfl

@[simp] theorem unplaced_method (receiver : Expr) (n : Name) (arguments : List Expr) :
    (method receiver n arguments s).unplaced =
      .method receiver.unplaced n.unplaced (arguments.map unplaced) .nowhere := by
  simp only [unplaced, mapSpans, mapSpansAll_eq_map]
  rfl

@[simp] theorem unplaced_index (receiver key : Expr) :
    (index receiver key s).unplaced = .index receiver.unplaced key.unplaced .nowhere := rfl

end Expr

end ConfigExpr
