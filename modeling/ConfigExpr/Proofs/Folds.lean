import ConfigExpr.Eval.Evaluator
import ConfigExpr.Proofs.Spans
import Mathlib.Data.List.Induction

/-!
# Folds

A fold applies its function to one item after the other, and each application is evaluated as deeply
as the first: with a counter, each begins where the fold began (`Counted.run_foldFrom_application`).
So the fold of a longer collection is one more application (`Builtin.fold_iterates`), and only an
application can nest too deeply, however many there are.
-/

namespace ConfigExpr

/-- The fold of a collection is the value begun with, to which a function is applied with each item
of a list and its position, or each entry of a map and its key. -/
structure Iterates (apply : Nat → Value → Value → Value → Except EvalError Value) (first : Value)
    (fold : Value → Except EvalError Value) : Prop where
  list_nil : fold (.list []) = .ok first
  list_append (items : List Value) (x : Value) : fold (.list (items ++ [x])) =
    fold (.list items) >>= fun acc =>
      apply items.length acc (.int (Int64.ofNat items.length)) x
  map_nil : fold (.map []) = .ok first
  map_append (fields : List Field) (f : Field) : fold (.map (fields ++ [f])) =
    fold (.map fields) >>= fun acc => apply fields.length acc (.string f.key) f.value

/-- The collection begins with another one, of `n` items or entries, and goes on with a value at an
index. -/
inductive Continues : (collection before : Value) → (n : Nat) → (index x : Value) → Prop where
  | item {items others : List Value} {x : Value} :
    Continues (.list (items ++ x :: others)) (.list items) items.length
      (.int (Int64.ofNat items.length)) x
  | entry {fields others : List Field} {f : Field} :
    Continues (.map (fields ++ f :: others)) (.map fields) fields.length (.string f.key) f.value

/-- What is built up item by item fails at one of the items. -/
theorem exists_of_append_error {α ε β : Type} (build : List α → Except ε β)
    (step : List α → β → α → Except ε β) {first : β} (hnil : build [] = .ok first)
    (happend : ∀ xs x, build (xs ++ [x]) = build xs >>= fun b => step xs b x) {xs : List α} {e : ε}
    (h : build xs = .error e) :
    ∃ before x after b, xs = before ++ x :: after ∧ build before = .ok b ∧
      step before b x = .error e := by
  induction xs using List.reverseRecOn with
  | nil => cases hnil.symm.trans h
  | append_singleton xs x ih =>
    rw [happend] at h
    cases hxs : build xs with
    | error e' =>
      rw [hxs] at h
      cases h
      obtain ⟨before, y, after, b, rfl, hbefore, hstep⟩ := ih hxs
      exact ⟨before, y, after ++ [x], b, by simp, hbefore, hstep⟩
    | ok b =>
      rw [hxs] at h
      exact ⟨xs, x, [], b, rfl, hxs, h⟩

namespace Iterates

variable {apply : Nat → Value → Value → Value → Except EvalError Value} {first : Value}
  {fold : Value → Except EvalError Value}

theorem exists_of_list_error (h : Iterates apply first fold) {items : List Value} {e : EvalError}
    (herror : fold (.list items) = .error e) :
    ∃ before n index x acc, Continues (.list items) before n index x ∧ fold before = .ok acc ∧
      apply n acc index x = .error e := by
  obtain ⟨before, x, after, acc, rfl, hbefore, happly⟩ :=
    exists_of_append_error (fun items => fold (.list items))
      (fun xs acc x => apply xs.length acc (.int (Int64.ofNat xs.length)) x)
      h.list_nil h.list_append herror
  exact ⟨_, _, _, x, acc, .item, hbefore, happly⟩

theorem exists_of_map_error (h : Iterates apply first fold) {fields : List Field} {e : EvalError}
    (herror : fold (.map fields) = .error e) :
    ∃ before n index x acc, Continues (.map fields) before n index x ∧ fold before = .ok acc ∧
      apply n acc index x = .error e := by
  obtain ⟨before, f, after, acc, rfl, hbefore, happly⟩ :=
    exists_of_append_error (fun fields => fold (.map fields))
      (fun xs acc f => apply xs.length acc (.string f.key) f.value)
      h.map_nil h.map_append herror
  exact ⟨_, _, _, f.value, acc, .entry, hbefore, happly⟩

end Iterates

section

variable {eval : Evaluator} {c : Closure} {site : Site} {span : Span}

theorem foldFrom_append (k : Nat) (acc : Value) (xs ys : List (Value × Value)) :
    foldFrom eval c site span k acc (xs ++ ys) =
      foldFrom eval c site span k acc xs >>= fun acc =>
        foldFrom eval c site span (k + xs.length) acc ys := by
  induction xs generalizing k acc with
  | nil => rfl
  | cons x xs ih =>
    simp only [List.cons_append, foldFrom, ih, bind_assoc, List.length_cons]
    simp only [Nat.add_right_comm k 1, Nat.add_assoc]

theorem foldFrom_singleton (k : Nat) (acc : Value) (step : Value × Value) :
    foldFrom eval c site span k acc [step] =
      c.apply eval (k :: site) [acc, step.1, step.2] span :=
  bind_pure _

theorem iterates_call (first : Value) :
    Iterates (fun n acc index x => c.apply eval (n :: site) [acc, index, x] span) first
      (fun collection => Builtin.fold.call eval site [first, .closure c, collection] span) where
  list_nil := rfl
  list_append items x := by
    simp only [Builtin.call, foldValues, foldSteps?, List.zipIdx_append, List.map_append,
      foldFrom_append, List.zipIdx_singleton, List.map_singleton, foldFrom_singleton,
      List.length_map, List.length_zipIdx, Nat.zero_add]
  map_nil := rfl
  map_append fields f := by
    simp only [Builtin.call, foldValues, foldSteps?, List.map_append, foldFrom_append,
      List.map_singleton, foldFrom_singleton, List.length_map, Nat.zero_add]

end

/-- The fold of an empty collection is the value begun with, and with one more item or entry it is one
more application at the same depth, unless the fold before has failed. So a fold that nests too deeply
has an application that does. -/
theorem Builtin.fold_iterates (limit depth : Nat) (f : Closure) (first : Value) (site : Site)
    (span : Span) :
    let apply n acc index x := f.apply (Expr.eval limit depth) (n :: site) [acc, index, x] span
    let fold collection :=
      Builtin.fold.call (Expr.eval limit depth) site [first, .closure f, collection] span
    Iterates apply first fold ∧
      ∀ collection bound place, fold collection = .error ⟨.tooDeep bound, place⟩ →
        ∃ before n index x acc, Continues collection before n index x ∧ fold before = .ok acc ∧
          apply n acc index x = .error ⟨.tooDeep bound, place⟩ := by
  intro apply fold
  have hiterates : Iterates apply first fold := iterates_call first
  refine ⟨hiterates, fun collection bound place h => ?_⟩
  cases collection with
  | list items => exact hiterates.exists_of_list_error h
  | map fields => exact hiterates.exists_of_map_error h
  | _ => cases h

/-- A function that puts its accumulator and the item into a list needs two evaluations in one
another. With one it fails at the first of three items, and with two it takes all of them. -/
theorem Builtin.fold_iterates_list :
    let body : Expr := .list [.name (.of "acc"), .name (.of "x")] .nowhere
    let f : Closure := ⟨⟨[.of "acc", .of "n", .of "x"], body, .nowhere⟩, 0, []⟩
    let items : List Value := [.bool true, .bool false]
    let fold (limit : Nat) (collection : Value) :=
      Builtin.fold.call (Expr.eval limit limit) [0, 0] [.int 7, .closure f, collection] ⟨3, 9⟩
    fold 2 (.list items) = .ok (.list [.list [.int 7, .bool true], .bool false]) ∧
      fold 2 (.list (items ++ [.int 5])) =
        .ok (.list [.list [.list [.int 7, .bool true], .bool false], .int 5]) ∧
      fold 1 (.list items) = .error ⟨.tooDeep 1, .nowhere⟩ ∧
      ∃ before n index x acc, Continues (.list items) before n index x ∧ fold 1 before = .ok acc ∧
        f.apply (Expr.eval 1 1) [n, 0, 0] [acc, index, x] ⟨3, 9⟩ =
          .error ⟨.tooDeep 1, .nowhere⟩ := by
  intro body f items fold
  have hitems : fold 2 (.list items) = .ok (.list [.list [.int 7, .bool true], .bool false]) := rfl
  have hdeep : fold 1 (.list items) = .error ⟨.tooDeep 1, .nowhere⟩ := rfl
  obtain ⟨hiterates, -⟩ := fold_iterates 2 2 f (.int 7) [0, 0] ⟨3, 9⟩
  refine ⟨hitems, ?_, hdeep, (fold_iterates 1 1 f (.int 7) [0, 0] ⟨3, 9⟩).2 _ _ _ hdeep⟩
  refine (hiterates.list_append items (.int 5)).trans ?_
  have hbefore : Builtin.fold.call (Expr.eval 2 2) [0, 0] [.int 7, .closure f, .list items] ⟨3, 9⟩ =
      _ := hitems
  rw [hbefore]
  rfl

end ConfigExpr
