import ConfigExpr.Program.Run
import ConfigExpr.Proofs.Builtins
import ConfigExpr.Proofs.Common

/-!
# The evaluator follows the rules

An evaluator agrees with the rules up to a depth if it returns the values that are derived there
and no others. `Expr.step` raises that depth by one, whatever evaluator it is given, so that
`Expr.eval` agrees with the rules up to its count (`Expr.eval_agrees`).
-/

namespace ConfigExpr

theorem EvalFault.at_eq_ok_iff {α : Type} {span : Span} {x : Except EvalFault α} {a : α} :
    EvalFault.at span x = .ok a ↔ x = .ok a := by
  cases x <;> simp [EvalFault.at]

theorem builtin?_eq_some_iff {env : Env} {callee : Expr} {b : Builtin} :
    builtin? env callee = some b ↔
      ∃ x, callee = .name x ∧ env.lookup? x.text = none ∧ Builtin.ofName? x.text = some b := by
  constructor
  · intro h
    unfold builtin? at h
    split at h
    next x =>
      split at h
      next hx => exact ⟨x, rfl, Option.isNone_iff_eq_none.1 hx, h⟩
      next => cases h
    next => cases h
  · rintro ⟨x, rfl, hx, hb⟩
    rw [builtin?, hx, if_pos (by simp), hb]

theorem itemAt?_eq_some_iff {items : List Value} {index : Int64} {v : Value} :
    itemAt? items index = some v ↔ ∃ k : Nat, index.toInt = k ∧ items[k]? = some v := by
  unfold itemAt?
  split
  next hneg =>
    refine iff_of_false nofun ?_
    rintro ⟨k, hk, -⟩
    omega
  next hneg =>
    constructor
    · exact fun hget => ⟨index.toInt.toNat, by omega, hget⟩
    · rintro ⟨k, hk, hget⟩
      rw [show index.toInt.toNat = k by omega]
      exact hget

theorem Evaluates.pos {n : Nat} {scope : Scope} {e : Expr} {v : Value}
    (h : Evaluates n scope e v) : 0 < n := by
  cases h <;> omega

/-- The evaluator returns the values that are derived up to the depth `d`. -/
def Evaluator.Agrees (eval : Evaluator) (d : Nat) : Prop :=
  ∀ {scope e v}, eval scope e = .ok v ↔ ∃ n ≤ d, Evaluates n scope e v

theorem Evaluator.Agrees.iff {eval : Evaluator} {d : Nat} (h : eval.Agrees d) {scope : Scope}
    {e : Expr} {v : Value} : eval scope e = .ok v ↔ ∃ n ≤ d, Evaluates n scope e v :=
  h

section

variable {eval : Evaluator} {d : Nat} (h : eval.Agrees d)

include h

theorem evalAll_eq_ok_iff {scope : Scope} {k : Nat} {es : List Expr} {vs : List Value} :
    evalAll eval scope k es = .ok vs ↔ ∃ n ≤ d, EvaluatesAll n scope k es vs := by
  induction es generalizing k vs with
  | nil =>
    constructor
    · rintro ⟨⟩
      exact ⟨0, Nat.zero_le d, .nil⟩
    · rintro ⟨_, -, ⟨⟩⟩
      rfl
  | cons e es ih =>
    simp only [evalAll, bind_eq_ok_iff, h.iff, ih]
    constructor
    · rintro ⟨v, ⟨n, hn, he⟩, vs, ⟨m, hm, hes⟩, ⟨⟩⟩
      exact ⟨max n m, by omega, .cons he hes⟩
    · rintro ⟨_, hle, hes⟩
      cases hes with
      | cons he hes =>
        exact ⟨_, ⟨_, by omega, he⟩, _, ⟨_, by omega, hes⟩, rfl⟩

theorem apply_eq_ok_iff {c : Closure} {site : Site} {arguments : List Value} {span : Span}
    {v : Value} :
    c.apply eval site arguments span = .ok v ↔ ∃ n ≤ d, Runs n c site arguments v := by
  unfold Closure.apply
  split
  next hlength =>
    rw [h.iff]
    constructor
    · rintro ⟨n, hn, hbody⟩
      exact ⟨n, hn, .body hlength hbody⟩
    · rintro ⟨n, hn, hruns⟩
      cases hruns with
      | body _ hbody => exact ⟨n, hn, hbody⟩
  next hlength =>
    refine iff_of_false nofun ?_
    rintro ⟨n, -, hruns⟩
    cases hruns with
    | body h _ => exact hlength h

theorem foldFrom_eq_ok_iff {c : Closure} {site : Site} {span : Span} {k : Nat} {first v : Value}
    {steps : List (Value × Value)} :
    foldFrom eval c site span k first steps = .ok v ↔ ∃ n ≤ d, Folds n c site k first steps v := by
  induction steps generalizing k first with
  | nil =>
    constructor
    · rintro ⟨⟩
      exact ⟨0, Nat.zero_le d, .nil⟩
    · rintro ⟨_, -, ⟨⟩⟩
      rfl
  | cons step steps ih =>
    simp only [foldFrom, bind_eq_ok_iff, apply_eq_ok_iff h, ih]
    constructor
    · rintro ⟨next, ⟨n, hn, hruns⟩, m, hm, hfolds⟩
      exact ⟨max n m, by omega, .cons hruns hfolds⟩
    · rintro ⟨_, hle, hfolds⟩
      cases hfolds with
      | cons hruns hfolds =>
        exact ⟨_, ⟨_, by omega, hruns⟩, _, by omega, hfolds⟩

theorem evalBindings_eq_ok_iff {scope inner : Scope} {k l : Nat} {bs : List Binding} :
    evalBindings eval scope k bs = .ok (l, inner) ↔ ∃ n ≤ d, Binds n scope k bs l inner := by
  induction bs generalizing scope k with
  | nil =>
    constructor
    · rintro ⟨⟩
      exact ⟨0, Nat.zero_le d, .nil⟩
    · rintro ⟨_, -, ⟨⟩⟩
      rfl
  | cons b bs ih =>
    simp only [evalBindings, bind_eq_ok_iff, h.iff, ih]
    constructor
    · rintro ⟨v, ⟨n, hn, he⟩, m, hm, hbs⟩
      exact ⟨max n m, by omega, .cons he hbs⟩
    · rintro ⟨_, hle, hbinds⟩
      cases hbinds with
      | cons he hbs =>
        exact ⟨_, ⟨_, by omega, he⟩, _, by omega, hbs⟩

theorem evalFields_eq_ok_iff {scope : Scope} {k : Nat} {es : List Entry} {fields : List Field} :
    evalFields eval scope k es = .ok fields ↔ ∃ n ≤ d, EvaluatesEntries n scope k es fields := by
  induction es generalizing k fields with
  | nil =>
    constructor
    · rintro ⟨⟩
      exact ⟨0, Nat.zero_le d, .nil⟩
    · rintro ⟨_, -, ⟨⟩⟩
      rfl
  | cons e es ih =>
    simp only [evalFields, bind_eq_ok_iff, h.iff, ih]
    constructor
    · rintro ⟨v, ⟨n, hn, he⟩, fields, ⟨m, hm, hes⟩, ⟨⟩⟩
      exact ⟨max n m, by omega, .cons he hes⟩
    · rintro ⟨_, hle, hes⟩
      cases hes with
      | cons he hes =>
        exact ⟨_, ⟨_, by omega, he⟩, _, ⟨_, by omega, hes⟩, rfl⟩

theorem evalSegments_eq_ok_iff {scope : Scope} {k : Nat} {ss : List Segment} {text : String} :
    evalSegments eval scope k ss = .ok text ↔ ∃ n ≤ d, EvaluatesSegments n scope k ss text := by
  induction ss generalizing k text with
  | nil =>
    constructor
    · rintro ⟨⟩
      exact ⟨0, Nat.zero_le d, .nil⟩
    · rintro ⟨_, -, ⟨⟩⟩
      rfl
  | cons s ss ih =>
    cases s with
    | text s =>
      simp only [evalSegments, bind_eq_ok_iff, ih]
      constructor
      · rintro ⟨rest, ⟨n, hn, hss⟩, ⟨⟩⟩
        exact ⟨n, hn, .text hss⟩
      · rintro ⟨n, hn, hss⟩
        cases hss with
        | text hss => exact ⟨_, ⟨n, hn, hss⟩, rfl⟩
    | code e =>
      simp only [evalSegments, bind_eq_ok_iff, h.iff]
      constructor
      · rintro ⟨v, ⟨n, hn, he⟩, hv⟩
        split at hv
        · cases hv
        next shown hshown =>
        obtain ⟨rest, hrest, ⟨⟩⟩ := bind_eq_ok_iff.1 hv
        obtain ⟨m, hm, hss⟩ := ih.1 hrest
        exact ⟨max n m, by omega, .code he hshown hss⟩
      · rintro ⟨_, hle, hss⟩
        cases hss with
        | code he hshown hss =>
          refine ⟨_, ⟨_, by omega, he⟩, ?_⟩
          simp only [hshown]
          exact bind_eq_ok_iff.2 ⟨_, ih.2 ⟨_, by omega, hss⟩, rfl⟩

theorem foldValues_eq_ok_iff {site : Site} {arguments : List Value} {span : Span} {v : Value} :
    foldValues eval site arguments span = .ok v ↔
      ∃ first c, ∃ n ≤ d,
        (∃ items, arguments = [first, .closure c, .list items] ∧ Folds n c site 0 first
          (items.zipIdx.map fun (item, i) => (.int (Int64.ofNat i), item)) v) ∨
        (∃ fields, arguments = [first, .closure c, .map fields] ∧ Folds n c site 0 first
          (fields.map fun f => (.string f.key, f.value)) v) := by
  constructor
  · intro hv
    unfold foldValues at hv
    split at hv
    next first c collection =>
      split at hv
      next steps hsteps =>
        obtain ⟨n, hn, hfolds⟩ := (foldFrom_eq_ok_iff h).1 hv
        unfold foldSteps? at hsteps
        split at hsteps
        next items =>
          cases hsteps
          exact ⟨first, c, n, hn, .inl ⟨items, rfl, hfolds⟩⟩
        next fields =>
          cases hsteps
          exact ⟨first, c, n, hn, .inr ⟨fields, rfl, hfolds⟩⟩
        next => cases hsteps
      next => cases hv
    next => cases hv
    next => cases hv
  · rintro ⟨first, c, n, hn, ⟨items, rfl, hfolds⟩ | ⟨fields, rfl, hfolds⟩⟩ <;>
      exact (foldFrom_eq_ok_iff h).2 ⟨n, hn, hfolds⟩

/-- The rules for built-in functions, where the name of one is not bound. -/
theorem call_eq_ok_iff {scope : Scope} {x : Name} {b : Builtin} {arguments : List Expr}
    {span : Span} {v : Value} (hx : scope.env.lookup? x.text = none)
    (hb : Builtin.ofName? x.text = some b) :
    (∃ values, evalAll eval scope 0 arguments = .ok values ∧
      b.call eval (arguments.length :: scope.site) values span = .ok v) ↔
      ∃ n ≤ d + 1, Evaluates n scope (.apply (.name x) arguments span) v := by
  simp only [evalAll_eq_ok_iff h]
  constructor
  · rintro ⟨values, ⟨n, hn, hargs⟩, hcall⟩
    unfold Builtin.ofName? at hb
    split at hb
    next hname =>
      cases hb
      obtain ⟨lists, rfl, hne, rfl⟩ := concatValues_eq_ok_iff.1 (EvalFault.at_eq_ok_iff.1 hcall)
      exact ⟨n + 1, by omega, .concat hname hx hargs hne⟩
    next hname =>
      cases hb
      obtain ⟨maps, ⟨rfl, hne⟩ | rfl, rfl⟩ :=
        mergeValues_eq_ok_iff.1 (EvalFault.at_eq_ok_iff.1 hcall)
      · exact ⟨n + 1, by omega, .merge hname hx hargs hne⟩
      · exact ⟨n + 1, by omega, .mergeList hname hx hargs⟩
    next hname =>
      cases hb
      obtain ⟨first, c, m, hm, ⟨items, rfl, hfolds⟩ | ⟨fields, rfl, hfolds⟩⟩ :=
        (foldValues_eq_ok_iff h).1 hcall
      · exact ⟨_, by omega, .foldList hname hx hargs hfolds⟩
      · exact ⟨_, by omega, .foldMap hname hx hargs hfolds⟩
    next => cases hb
  · rintro ⟨_, hle, he⟩
    have hbuiltin : ∀ {text : String} {c : Builtin}, x.text = text →
        Builtin.ofName? text = some c → b = c := by
      intro text c hname hc
      rw [hname, hc] at hb
      cases hb
      rfl
    cases he with
    | apply hcallee =>
      -- a name that is not bound has no value
      cases hcallee with
      | name hbound => cases hx.symm.trans hbound
    | concat hname _ hargs hne =>
      obtain rfl : b = .concat := hbuiltin hname rfl
      exact ⟨_, ⟨_, by omega, hargs⟩,
        EvalFault.at_eq_ok_iff.2 (concatValues_eq_ok_iff.2 ⟨_, rfl, hne, rfl⟩)⟩
    | merge hname _ hargs hne =>
      obtain rfl : b = .merge := hbuiltin hname rfl
      exact ⟨_, ⟨_, by omega, hargs⟩,
        EvalFault.at_eq_ok_iff.2 (mergeValues_eq_ok_iff.2 ⟨_, .inl ⟨rfl, hne⟩, rfl⟩)⟩
    | mergeList hname _ hargs =>
      obtain rfl : b = .merge := hbuiltin hname rfl
      exact ⟨_, ⟨_, by omega, hargs⟩,
        EvalFault.at_eq_ok_iff.2 (mergeValues_eq_ok_iff.2 ⟨_, .inr rfl, rfl⟩)⟩
    | foldList hname _ hargs hfolds =>
      obtain rfl : b = .fold := hbuiltin hname rfl
      exact ⟨_, ⟨_, by omega, hargs⟩,
        (foldValues_eq_ok_iff h).2 ⟨_, _, _, by omega, .inl ⟨_, rfl, hfolds⟩⟩⟩
    | foldMap hname _ hargs hfolds =>
      obtain rfl : b = .fold := hbuiltin hname rfl
      exact ⟨_, ⟨_, by omega, hargs⟩,
        (foldValues_eq_ok_iff h).2 ⟨_, _, _, by omega, .inr ⟨_, rfl, hfolds⟩⟩⟩

theorem evalCall_eq_ok_iff {scope : Scope} {callee : Expr} {arguments : List Expr}
    {span : Span} {v : Value} :
    evalCall eval scope callee arguments span = .ok v ↔
      ∃ c values, ∃ n ≤ d, ∃ m ≤ d, ∃ k ≤ d, Evaluates n (scope.part 0) callee (.closure c) ∧
        EvaluatesAll m scope 1 arguments values ∧
        Runs k c ((arguments.length + 1) :: scope.site) values v := by
  unfold evalCall
  simp only [bind_eq_ok_iff, h.iff]
  constructor
  · rintro ⟨value, ⟨n, hn, hcallee⟩, hv⟩
    split at hv
    next c =>
      obtain ⟨values, hvalues, happly⟩ := bind_eq_ok_iff.1 hv
      obtain ⟨m, hm, hargs⟩ := (evalAll_eq_ok_iff h).1 hvalues
      obtain ⟨k, hk, hruns⟩ := (apply_eq_ok_iff h).1 happly
      exact ⟨c, values, n, hn, m, hm, k, hk, hcallee, hargs, hruns⟩
    next => cases hv
  · rintro ⟨c, values, n, hn, m, hm, k, hk, hcallee, hargs, hruns⟩
    exact ⟨_, ⟨n, hn, hcallee⟩, bind_eq_ok_iff.2 ⟨values, (evalAll_eq_ok_iff h).2 ⟨m, hm, hargs⟩,
      (apply_eq_ok_iff h).2 ⟨k, hk, hruns⟩⟩⟩

theorem step_apply_iff {scope : Scope} {callee : Expr} {arguments : List Expr} {span : Span}
    {v : Value} :
    Expr.step eval scope (.apply callee arguments span) = .ok v ↔
      ∃ n ≤ d + 1, Evaluates n scope (.apply callee arguments span) v := by
  unfold Expr.step
  cases hbuiltin : builtin? scope.env callee with
  | some b =>
    obtain ⟨x, rfl, hx, hb⟩ := builtin?_eq_some_iff.1 hbuiltin
    simp only [hbuiltin, bind_eq_ok_iff]
    exact call_eq_ok_iff h hx hb
  | none =>
    have hnone : ∀ x, callee = .name x → scope.env.lookup? x.text = none →
        Builtin.ofName? x.text = none := by
      intro x hcallee hx
      cases hb : Builtin.ofName? x.text with
      | none => rfl
      | some b => cases hbuiltin.symm.trans (builtin?_eq_some_iff.2 ⟨x, hcallee, hx, hb⟩)
    simp only [hbuiltin, evalCall_eq_ok_iff h]
    constructor
    · rintro ⟨c, values, n, hn, m, hm, k, hk, hcallee, hargs, hruns⟩
      exact ⟨_, by omega, .apply hcallee hargs hruns⟩
    · rintro ⟨_, hle, he⟩
      cases he with
      | apply hcallee hargs hruns =>
        exact ⟨_, _, _, by omega, _, by omega, _, by omega, hcallee, hargs, hruns⟩
      | concat hname hx | merge hname hx | mergeList hname hx | foldList hname hx
      | foldMap hname hx =>
        -- the name of a built-in function that is not bound stands for it
        have hb := hnone _ rfl hx
        rw [hname] at hb
        cases hb

theorem step_map_iff {scope : Scope} {entries : List Entry} {span : Span} {v : Value} :
    Expr.step eval scope (.map entries span) = .ok v ↔
      ∃ n ≤ d + 1, Evaluates n scope (.map entries span) v := by
  have hkeys : ∀ {k es n fields}, EvaluatesEntries n scope k es fields →
      fields.map (·.key) = (es.map (·.key)).map (·.text) := by
    intro k es n fields hes
    induction es generalizing k n fields with
    | nil =>
      cases hes
      rfl
    | cons e es ih =>
      cases hes with
      | cons he hes => rw [List.map_cons, ih hes, List.map_cons, List.map_cons]
  unfold Expr.step
  simp only [evalMap_eq, bind_eq_ok_iff, evalFields_eq_ok_iff h]
  constructor
  · rintro ⟨fields, ⟨n, hn, hes⟩, hv⟩
    split at hv
    · cases hv
    next hnone =>
    cases hv
    refine ⟨n + 1, by omega, .map hes ?_⟩
    rw [hkeys hes]
    exact (Name.repeated?_eq_none_iff.1 hnone).1
  · rintro ⟨_, hle, he⟩
    cases he with
    | map hes hnodup =>
      rw [hkeys hes] at hnodup
      refine ⟨_, ⟨_, by omega, hes⟩, ?_⟩
      rw [Name.repeated?_eq_none_iff.2 ⟨hnodup, by simp⟩]

theorem step_member_iff {scope : Scope} {receiver : Expr} {x : Name} {span : Span} {v : Value} :
    Expr.step eval scope (.member receiver x span) = .ok v ↔
      ∃ n ≤ d + 1, Evaluates n scope (.member receiver x span) v := by
  unfold Expr.step
  simp only [bind_eq_ok_iff, h.iff]
  constructor
  · rintro ⟨value, ⟨n, hn, hreceiver⟩, hv⟩
    unfold accessMember at hv
    split at hv
    next fields =>
      split at hv
      next hget =>
        cases hv
        exact ⟨n + 1, by omega, .member hreceiver hget⟩
      next => cases hv
    next => cases hv
  · rintro ⟨_, hle, he⟩
    cases he with
    | member hreceiver hget =>
      refine ⟨_, ⟨_, by omega, hreceiver⟩, ?_⟩
      simp only [accessMember, hget]

theorem step_method_iff {scope : Scope} {receiver : Expr} {x : Name} {arguments : List Expr}
    {span : Span} {v : Value} :
    Expr.step eval scope (.method receiver x arguments span) = .ok v ↔
      ∃ n ≤ d + 1, Evaluates n scope (.method receiver x arguments span) v := by
  unfold Expr.step
  simp only [bind_eq_ok_iff, h.iff, evalAll_eq_ok_iff h]
  constructor
  · rintro ⟨value, ⟨n, hn, hreceiver⟩, values, ⟨m, hm, hargs⟩, hv⟩
    unfold callMethod at hv
    split at hv
    next fields =>
      split at hv
      next c hget =>
        obtain ⟨k, hk, hruns⟩ := (apply_eq_ok_iff h).1 hv
        exact ⟨_, by omega, .mapMethod hreceiver hargs hget hruns⟩
      next => cases hv
      next => cases hv
    next text =>
      split at hv
      next method hmethod =>
        have hcall := stringMethod_iff.2 ⟨method, hmethod, EvalFault.at_eq_ok_iff.1 hv⟩
        exact ⟨_, by omega, .stringMethod hreceiver hargs hcall⟩
      next => cases hv
    next => cases hv
  · rintro ⟨_, hle, he⟩
    cases he with
    | mapMethod hreceiver hargs hget hruns =>
      refine ⟨_, ⟨_, by omega, hreceiver⟩, _, ⟨_, by omega, hargs⟩, ?_⟩
      simp only [callMethod, hget]
      exact (apply_eq_ok_iff h).2 ⟨_, by omega, hruns⟩
    | stringMethod hreceiver hargs hcall =>
      obtain ⟨method, hmethod, hv⟩ := stringMethod_iff.1 hcall
      refine ⟨_, ⟨_, by omega, hreceiver⟩, _, ⟨_, by omega, hargs⟩, ?_⟩
      simp only [callMethod, hmethod]
      exact EvalFault.at_eq_ok_iff.2 hv

theorem step_index_iff {scope : Scope} {receiver key : Expr} {span : Span} {v : Value} :
    Expr.step eval scope (.index receiver key span) = .ok v ↔
      ∃ n ≤ d + 1, Evaluates n scope (.index receiver key span) v := by
  unfold Expr.step
  simp only [bind_eq_ok_iff, h.iff]
  constructor
  · rintro ⟨value, ⟨n, hn, hreceiver⟩, position, ⟨m, hm, hkey⟩, hv⟩
    unfold accessIndex at hv
    split at hv
    next fields text =>
      split at hv
      next hget =>
        cases hv
        exact ⟨_, by omega, .indexMap hreceiver hkey hget⟩
      next => cases hv
    next => cases hv
    next items index =>
      split at hv
      next hitem =>
        cases hv
        obtain ⟨k, hk, hget⟩ := itemAt?_eq_some_iff.1 hitem
        exact ⟨_, by omega, .indexList hreceiver hkey hk hget⟩
      next => cases hv
    next => cases hv
    next => cases hv
  · rintro ⟨_, hle, he⟩
    cases he with
    | indexMap hreceiver hkey hget =>
      refine ⟨_, ⟨_, by omega, hreceiver⟩, _, ⟨_, by omega, hkey⟩, ?_⟩
      simp only [accessIndex, hget]
    | indexList hreceiver hkey hk hget =>
      refine ⟨_, ⟨_, by omega, hreceiver⟩, _, ⟨_, by omega, hkey⟩, ?_⟩
      simp only [accessIndex, itemAt?_eq_some_iff.2 ⟨_, hk, hget⟩]

omit h in
theorem step_name_iff {scope : Scope} {x : Name} {v : Value} :
    Expr.step eval scope (.name x) = .ok v ↔ ∃ n ≤ d + 1, Evaluates n scope (.name x) v := by
  unfold Expr.step
  cases hx : scope.env.lookup? x.text with
  | none =>
    simp only [hx]
    refine iff_of_false nofun ?_
    rintro ⟨_, -, he⟩
    cases he with
    | name hbound => cases hx.symm.trans hbound
  | some w =>
    simp only [hx]
    constructor
    · rintro ⟨⟩
      exact ⟨1, by omega, .name hx⟩
    · rintro ⟨_, -, he⟩
      cases he with
      | name hbound => exact congrArg Except.ok (Option.some.inj (hx.symm.trans hbound))

theorem step_letIn_iff {scope : Scope} {bindings : List Binding} {body : Expr} {span : Span}
    {v : Value} :
    Expr.step eval scope (.letIn bindings body span) = .ok v ↔
      ∃ n ≤ d + 1, Evaluates n scope (.letIn bindings body span) v := by
  unfold Expr.step
  simp only [bind_eq_ok_iff, Prod.exists, evalBindings_eq_ok_iff h, h.iff]
  constructor
  · rintro ⟨k, inner, ⟨n, hn, hbs⟩, m, hm, hbody⟩
    exact ⟨_, by omega, .letIn hbs hbody⟩
  · rintro ⟨_, hle, he⟩
    cases he with
    | letIn hbs hbody => exact ⟨_, _, ⟨_, by omega, hbs⟩, _, by omega, hbody⟩

theorem step_template_iff {scope : Scope} {segments : List Segment} {span : Span} {v : Value} :
    Expr.step eval scope (.template segments span) = .ok v ↔
      ∃ n ≤ d + 1, Evaluates n scope (.template segments span) v := by
  unfold Expr.step
  simp only [bind_eq_ok_iff, evalSegments_eq_ok_iff h]
  constructor
  · rintro ⟨text, ⟨n, hn, hss⟩, ⟨⟩⟩
    exact ⟨n + 1, by omega, .template hss⟩
  · rintro ⟨_, hle, he⟩
    cases he with
    | template hss => exact ⟨_, ⟨_, by omega, hss⟩, rfl⟩

theorem step_list_iff {scope : Scope} {items : List Expr} {span : Span} {v : Value} :
    Expr.step eval scope (.list items span) = .ok v ↔
      ∃ n ≤ d + 1, Evaluates n scope (.list items span) v := by
  unfold Expr.step
  simp only [bind_eq_ok_iff, evalAll_eq_ok_iff h]
  constructor
  · rintro ⟨values, ⟨n, hn, hitems⟩, ⟨⟩⟩
    exact ⟨n + 1, by omega, .list hitems⟩
  · rintro ⟨_, hle, he⟩
    cases he with
    | list hitems => exact ⟨_, ⟨_, by omega, hitems⟩, rfl⟩

/-- A step evaluates the parts of an expression one level below it. -/
theorem step_eq_ok_iff {scope : Scope} {e : Expr} {v : Value} :
    Expr.step eval scope e = .ok v ↔ ∃ n ≤ d + 1, Evaluates n scope e v := by
  cases e with
  | int | float | bool | lambda =>
    constructor
    · rintro ⟨⟩
      exact ⟨1, by omega, by constructor⟩
    · rintro ⟨_, -, ⟨⟩⟩
      rfl
  | name => exact step_name_iff
  | letIn => exact step_letIn_iff h
  | template => exact step_template_iff h
  | list => exact step_list_iff h
  | apply => exact step_apply_iff h
  | map => exact step_map_iff h
  | member => exact step_member_iff h
  | method => exact step_method_iff h
  | index => exact step_index_iff h

end

theorem Expr.eval_agrees (limit : Nat) : ∀ d, Evaluator.Agrees (Expr.eval limit d) d
  | 0 => by
    refine iff_of_false nofun ?_
    rintro ⟨n, hn, he⟩
    have hpos := he.pos
    omega
  | d + 1 => step_eq_ok_iff (eval_agrees limit d)

end ConfigExpr
