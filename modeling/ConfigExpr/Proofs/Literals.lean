import ConfigExpr.Program.Run
import ConfigExpr.Proofs.Distinct
import ConfigExpr.Proofs.Reparse
import ConfigExpr.Value.Render

/-!
# Values as literals

The text of a value is that of an expression, its literal. Evaluating the literal gives the value
back if evaluations may nest as deeply as the value does, and fails by the limit otherwise.
-/

namespace ConfigExpr

mutual

/-- No closure, distinct keys in every map, and every float reads back. -/
def Value.Plain : Value → Prop
  | .float x => x.ReadsBack
  | .list items => Value.PlainAll items
  | .map fields => (fields.map (·.key)).Nodup ∧ Field.PlainAll fields
  | .closure _ => False
  | _ => True

def Value.PlainAll : List Value → Prop
  | [] => True
  | v :: vs => v.Plain ∧ Value.PlainAll vs

def Field.PlainAll : List Field → Prop
  | [] => True
  | ⟨_, v⟩ :: fs => v.Plain ∧ Field.PlainAll fs

end

mutual

/-- How deeply a value nests: one more than its highest element. -/
def Value.height : Value → Nat
  | .list items => 1 + Value.heightAll items
  | .map fields => 1 + Field.heightAll fields
  | _ => 1

def Value.heightAll : List Value → Nat
  | [] => 0
  | v :: vs => max v.height (Value.heightAll vs)

def Field.heightAll : List Field → Nat
  | [] => 0
  | ⟨_, v⟩ :: fs => max v.height (Field.heightAll fs)

end

/-- A text as the segments of a string. -/
def Segment.ofText (text : String) : List Segment :=
  if text = "" then [] else [.text text]

mutual

/-- The expression that a value without closures is shown as. -/
def Value.literal : Value → Expr
  | .int v => .int v .nowhere
  | .float x => .float x .nowhere
  | .string text => .template (Segment.ofText text) .nowhere
  | .bool b => .bool b .nowhere
  | .list items => .list (Value.literalAll items) .nowhere
  | .map fields => .map (Field.literalAll fields) .nowhere
  | .closure c => c.lambda.toExpr

def Value.literalAll : List Value → List Expr
  | [] => []
  | v :: vs => v.literal :: Value.literalAll vs

def Field.literalAll : List Field → List Entry
  | [] => []
  | ⟨key, v⟩ :: fs => ⟨.of key, v.literal⟩ :: Field.literalAll fs

end

theorem Segment.renderAll_ofText (text : String) :
    renderAll (ofText text) = Text.escape text.toList := by
  unfold ofText
  split
  next h =>
    subst h
    rfl
  next => simp [renderAll, render]

theorem Segment.cut_ofText (text : String) : Cut (ofText text) := by
  unfold ofText
  split
  next => trivial
  next h => exact ⟨by simpa using h, by simp, trivial⟩

theorem Segment.mem_ofText {text : String} {e : Expr} : .code e ∉ ofText text := by
  unfold ofText
  split <;> simp

mutual

theorem Value.render_literal : ∀ v : Value, v.literal.render = v.render
  | .int _ | .float _ | .bool _ => rfl
  | .string text => by
    rw [Value.literal, Expr.render, Segment.renderAll_ofText, Value.render]
  | .list items => by rw [Value.literal, Expr.render, Value.render_literalAll, Value.render]
  | .map fields => by rw [Value.literal, Expr.render, Field.render_literalAll, Value.render]
  | .closure ⟨lambda, _, _⟩ => by rw [Value.literal, Value.render, Closure.render]

theorem Value.render_literalAll :
    ∀ vs : List Value, Expr.renderAll (Value.literalAll vs) = Value.renderAll vs
  | [] => rfl
  | v :: vs => by
    rw [Value.literalAll, Expr.renderAll, Value.render_literal v, Value.render_literalAll vs,
      Value.renderAll]

theorem Field.render_literalAll :
    ∀ fs : List Field, Entry.renderAll (Field.literalAll fs) = Field.renderAll fs
  | [] => rfl
  | ⟨key, v⟩ :: fs => by
    rw [Field.literalAll, Entry.renderAll, Entry.render, Value.render_literal v,
      Field.render_literalAll fs, Field.renderAll, Field.render, Name.of_text]

end

mutual

theorem Value.plain_literal : ∀ {v : Value}, v.Plain → v.literal.Everywhere Expr.Plain
  | .int _, _ | .bool _, _ => .intro ⟨trivial, trivial, rfl⟩ nofun
  | .float _, h => .intro ⟨trivial, h, rfl⟩ nofun
  | .string text, _ => by
    refine .intro ⟨Segment.cut_ofText text, trivial, rfl⟩ fun x hx => ?_
    obtain ⟨s, hs, hx⟩ := List.mem_filterMap.1 hx
    cases s with
    | text => cases hx
    | code e => exact absurd hs Segment.mem_ofText
  | .list _, h => .intro ⟨trivial, trivial, rfl⟩ (Value.plain_literalAll h)
  | .map _, h => .intro ⟨trivial, trivial, rfl⟩ (Field.plain_literalAll h.2)

theorem Value.plain_literalAll : ∀ {vs : List Value}, Value.PlainAll vs →
    ∀ e ∈ Value.literalAll vs, e.Everywhere Expr.Plain
  | [], _ => nofun
  | v :: vs, h => by
    intro e he
    rcases List.mem_cons.1 he with rfl | he
    · exact Value.plain_literal h.1
    · exact Value.plain_literalAll h.2 e he

theorem Field.plain_literalAll : ∀ {fs : List Field}, Field.PlainAll fs →
    ∀ e ∈ (Field.literalAll fs).map (·.value), e.Everywhere Expr.Plain
  | [], _ => nofun
  | ⟨key, v⟩ :: fs, h => by
    intro e he
    rcases List.mem_cons.1 he with rfl | he
    · exact Value.plain_literal h.1
    · exact Field.plain_literalAll h.2 e he

end

/-! ## Evaluation -/

/-- A result that needs evaluations nested `height` deep where `depth` are allowed. -/
def Guarded {α : Type} (limit depth height : Nat) (r : Except EvalError α) (a : α) : Prop :=
  (height ≤ depth → r = .ok a) ∧ (depth < height → ∃ s, r = .error ⟨.tooDeep limit, s⟩)

namespace Guarded

variable {α β : Type} {limit depth m n : Nat}

theorem ok (a : α) : Guarded limit depth 0 (.ok a) a :=
  ⟨fun _ => rfl, fun h => absurd h (Nat.not_lt_zero _)⟩

/-- The first result to nest too deeply is the error of both. -/
theorem bind {r : Except EvalError α} {a : α} {f : α → Except EvalError β} {b : β}
    (hr : Guarded limit depth m r a) (hf : Guarded limit depth n (f a) b) :
    Guarded limit depth (max m n) (r >>= f) b := by
  by_cases hm : m ≤ depth
  · rw [hr.1 hm]
    refine ⟨fun h => hf.1 (by omega), fun h => hf.2 (by omega)⟩
  · obtain ⟨s, hs⟩ := hr.2 (by omega)
    rw [hs]
    exact ⟨fun h => absurd h (by omega), fun _ => ⟨s, rfl⟩⟩

theorem map {r : Except EvalError α} {a : α} (f : α → β) (hr : Guarded limit depth m r a) :
    Guarded limit depth m (r >>= fun a => .ok (f a)) (f a) := by
  have hbind := hr.bind (f := fun a => .ok (f a)) (.ok (f a))
  rwa [Nat.max_eq_left (Nat.zero_le m)] at hbind

/-- An evaluation nests its parts one level deeper. -/
theorem succ {r : Except EvalError α} {a : α} (hr : Guarded limit depth m r a) :
    Guarded limit (depth + 1) (1 + m) r a :=
  ⟨fun h => hr.1 (by omega), fun h => hr.2 (by omega)⟩

end Guarded

theorem Value.height_pos (v : Value) : 0 < v.height := by
  cases v <;> simp only [height] <;> omega

theorem Expr.eval_zero (limit : Nat) (scope : Scope) (e : Expr) (v : Value) :
    Guarded limit 0 v.height (Expr.eval limit 0 scope e) v :=
  ⟨fun h => absurd v.height_pos (by omega), fun _ => ⟨e.span, rfl⟩⟩

theorem evalSegments_ofText (eval : Evaluator) (scope : Scope) {text : String}
    {segments : List Segment}
    (h : segments.map Segment.unplaced = (Segment.ofText text).map Segment.unplaced) :
    evalSegments eval scope 0 segments = .ok text := by
  unfold Segment.ofText at h
  split at h
  next htext =>
    obtain rfl := List.map_eq_nil_iff.1 h
    rw [htext]
    rfl
  next =>
    obtain ⟨s, _, rfl, hs, hnil⟩ := List.map_eq_cons_iff.1 h
    obtain rfl := List.map_eq_nil_iff.1 hnil
    cases s with
    | text text' =>
      cases hs
      show (do let rest ← Except.ok ""; return text ++ rest : Except EvalError String) = _
      exact congrArg Except.ok String.append_empty
    | code e => cases hs

theorem Entry.keys_unplaced (es : List Entry) :
    (es.map (·.key)).map (·.text) = ((es.map Entry.unplaced).map (·.key)).map (·.text) := by
  simp [Function.comp_def]

theorem Field.keys_literalAll : ∀ fs : List Field,
    ((literalAll fs).map (·.key)).map (·.text) = fs.map (·.key)
  | [] => rfl
  | ⟨key, _⟩ :: fs => congrArg (key :: ·) (keys_literalAll fs)

mutual

/-- An expression that is the literal of a value up to positions evaluates to the value. -/
theorem Value.eval_literal : ∀ {v : Value}, v.Plain → ∀ {e : Expr} (limit depth : Nat)
    (scope : Scope), e.unplaced = v.literal.unplaced →
      Guarded limit depth v.height (Expr.eval limit depth scope e) v
  | v, _, e, limit, 0, scope, _ => Expr.eval_zero limit scope e v
  | .int _, _, e, limit, depth + 1, scope, he => by
    cases e with
    | int =>
      cases he
      exact (Guarded.ok _).succ
    | _ => simp [Value.literal] at he
  | .float _, _, e, limit, depth + 1, scope, he => by
    cases e with
    | float =>
      cases he
      exact (Guarded.ok _).succ
    | _ => simp [Value.literal] at he
  | .bool _, _, e, limit, depth + 1, scope, he => by
    cases e with
    | bool =>
      cases he
      exact (Guarded.ok _).succ
    | _ => simp [Value.literal] at he
  | .string text, _, e, limit, depth + 1, scope, he => by
    cases e with
    | template segments s =>
      simp only [Value.literal, Expr.unplaced_template, Expr.template.injEq, and_true] at he
      rw [Expr.eval, Expr.step, evalSegments_ofText _ scope he]
      exact (Guarded.ok (Value.string text)).succ
    | _ => simp [Value.literal] at he
  | .list items, h, e, limit, depth + 1, scope, he => by
    cases e with
    | list es s =>
      simp only [Value.literal, Expr.unplaced_list, Expr.list.injEq, and_true] at he
      exact ((Value.eval_literalAll h limit depth scope 0 he).map Value.list).succ
    | _ => simp [Value.literal] at he
  | .map fields, h, e, limit, depth + 1, scope, he => by
    cases e with
    | map es s =>
      simp only [Value.literal, Expr.unplaced_map, Expr.map.injEq, and_true] at he
      have hkeys : (es.map (·.key)).map (·.text) = fields.map (·.key) := by
        rw [Entry.keys_unplaced, he, ← Entry.keys_unplaced, Field.keys_literalAll]
      have hnone : Name.repeated? [] (es.map (·.key)) = none :=
        Name.repeated?_eq_none_iff.2 ⟨hkeys ▸ h.1, by simp⟩
      have hfields := (Field.eval_literalAll h.2 limit depth scope 0 he).map Value.map
      rw [Expr.eval, Expr.step, evalMap_eq, hnone]
      exact hfields.succ
    | _ => simp [Value.literal] at he

theorem Value.eval_literalAll : ∀ {vs : List Value}, Value.PlainAll vs → ∀ {es : List Expr}
    (limit depth : Nat) (scope : Scope) (k : Nat),
      es.map Expr.unplaced = (Value.literalAll vs).map Expr.unplaced →
      Guarded limit depth (Value.heightAll vs) (evalAll (Expr.eval limit depth) scope k es) vs
  | [], _, es, limit, depth, scope, k, he => by
    obtain rfl := List.map_eq_nil_iff.1 he
    exact .ok []
  | v :: vs, h, es, limit, depth, scope, k, he => by
    obtain ⟨e, es, rfl, hfirst, hothers⟩ := List.map_eq_cons_iff.1 he
    have hv := Value.eval_literal h.1 limit depth (scope.part k) hfirst
    have hvs := Value.eval_literalAll h.2 limit depth scope (k + 1) hothers
    exact hv.bind (hvs.map (v :: ·))

theorem Field.eval_literalAll : ∀ {fs : List Field}, Field.PlainAll fs → ∀ {es : List Entry}
    (limit depth : Nat) (scope : Scope) (k : Nat),
      es.map Entry.unplaced = (Field.literalAll fs).map Entry.unplaced →
      Guarded limit depth (Field.heightAll fs) (evalFields (Expr.eval limit depth) scope k es) fs
  | [], _, es, limit, depth, scope, k, he => by
    obtain rfl := List.map_eq_nil_iff.1 he
    exact .ok []
  | ⟨key, v⟩ :: fs, h, es, limit, depth, scope, k, he => by
    obtain ⟨⟨n, e⟩, es, rfl, hfirst, hothers⟩ := List.map_eq_cons_iff.1 he
    simp only [Entry.unplaced_mk, Entry.mk.injEq] at hfirst
    obtain rfl : n.text = key := congrArg Name.text hfirst.1
    have hv := Value.eval_literal h.1 limit depth (scope.part k) hfirst.2
    have hfs := Field.eval_literalAll h.2 limit depth scope (k + 1) hothers
    exact hv.bind (hfs.map (Field.mk n.text v :: ·))

end

/-- The text of a value parses to an expression that evaluates to the value, if evaluations may
nest as deeply as the value does. -/
theorem Program.parse_toString_value {v : Value} (hv : v.Plain) :
    ∃ p, parse (toString v) = .ok p ∧ ∀ run env d,
      (v.height ≤ d → p.evaluateIn run env d = .ok v) ∧
      (d < v.height → ∃ s, p.evaluateIn run env d = .error ⟨.tooDeep d, s⟩) := by
  obtain ⟨p, hp, halike⟩ := exists_parse_of_plain (Value.plain_literal hv)
  have htext : toString v = toString v.literal :=
    congrArg String.ofList v.render_literal.symm
  refine ⟨p, htext ▸ hp, fun run env d => ?_⟩
  exact Value.eval_literal hv d d ⟨run.program, [0, run.number], env⟩ halike

theorem Program.parse_toString_value_nested :
    let v : Value := .map [⟨"in", .list [.string "a\"$\n", .int Int64.minValue, .map []]⟩,
      ⟨"", .float (.ofDigits true ['1'] ['5'])⟩]
    v.Plain ∧ ∃ p, parse (toString v) = .ok p ∧ p.evaluateIn ⟨0, 0⟩ [] 3 = .ok v ∧
      ∃ s, p.evaluateIn ⟨0, 0⟩ [] 2 = .error ⟨.tooDeep 2, s⟩ := by
  intro v
  have hwrite : Binary64.Layout.literal.write (.ofDigits true ['1'] ['5']) = ['-', '1', '.', '5'] :=
    by decide +kernel
  have hplain : v.Plain :=
    ⟨by decide, ⟨trivial, trivial, ⟨by simp, trivial⟩, trivial⟩,
      ⟨['-'], ['1'], ['5'], hwrite, .inr rfl, by simp, by simp, List.all_eq_true.1 rfl, rfl⟩,
      trivial⟩
  obtain ⟨p, hp, heval⟩ := parse_toString_value hplain
  have hheight : v.height = 3 := rfl
  exact ⟨hplain, p, hp, (heval ⟨0, 0⟩ [] 3).1 (by omega), (heval ⟨0, 0⟩ [] 2).2 (by omega)⟩

end ConfigExpr
