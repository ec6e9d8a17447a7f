import ConfigExpr.Eval.Evaluator
import ConfigExpr.Proofs.Scoping
import ConfigExpr.Value.Render
import Mathlib.Data.List.Forall2

/-!
# Values related through their closures

A relation of closures is one of values: scalars are related to themselves, lists and maps item by
item, closures as given. The functions on values that run no closure take related values to related
values, or fail on both with the same fault.
-/

namespace ConfigExpr

mutual

inductive Value.Related (C : Closure → Closure → Prop) : Value → Value → Prop where
  | int {v : Int64} : Value.Related C (.int v) (.int v)
  | float {v : Binary64} : Value.Related C (.float v) (.float v)
  | string {text : String} : Value.Related C (.string text) (.string text)
  | bool {v : Bool} : Value.Related C (.bool v) (.bool v)
  | list {vs ws : List Value} :
    List.Forall₂ (Value.Related C) vs ws → Value.Related C (.list vs) (.list ws)
  | map {fs gs : List Field} :
    List.Forall₂ (Field.Related C) fs gs → Value.Related C (.map fs) (.map gs)
  | closure {c d : Closure} : C c d → Value.Related C (.closure c) (.closure d)

inductive Field.Related (C : Closure → Closure → Prop) : Field → Field → Prop where
  | mk {key : String} {v w : Value} : Value.Related C v w → Field.Related C ⟨key, v⟩ ⟨key, w⟩

end

section

variable {C : Closure → Closure → Prop}

theorem exists_related_of_mem {α : Type} {R : α → α → Prop} {as bs : List α}
    (h : List.Forall₂ R as bs) {a : α} (ha : a ∈ as) : ∃ b, R a b := by
  induction h with
  | nil => cases ha
  | cons hab _ ih =>
    rcases List.mem_cons.1 ha with rfl | ha
    · exact ⟨_, hab⟩
    · exact ih ha

theorem Value.Related.kind_eq {v w : Value} (h : v.Related C w) : v.kind = w.kind := by
  cases h <;> rfl

theorem Value.Related.interpolated?_eq {v w : Value} (h : v.Related C w) :
    v.interpolated? = w.interpolated? := by
  cases h <;> rfl

theorem Field.Related.key_eq {f g : Field} (h : f.Related C g) : f.key = g.key := by
  cases h
  rfl

theorem Field.Related.value {f g : Field} (h : f.Related C g) : f.value.Related C g.value := by
  cases h
  assumption

mutual

/-- Related values are the same if each closure in the one is related to no other closure. -/
theorem Value.Related.eq : ∀ {v w : Value}, v.Related C w →
    (∀ c d, v.Contains c → C c d → c = d) → v = w
  | _, _, .int, _ | _, _, .float, _ | _, _, .string, _ | _, _, .bool, _ => rfl
  | _, _, .list h, hc => by
    rw [Value.Related.eqAll h fun v hv c d hcontains => hc c d (.item hv hcontains)]
  | _, _, .map h, hc => by
    rw [Field.Related.eqAll h fun f hf c d hcontains => hc c d (.field hf hcontains)]
  | _, _, .closure h, hc => by rw [hc _ _ .closure h]

theorem Value.Related.eqAll : ∀ {vs ws : List Value}, List.Forall₂ (Value.Related C) vs ws →
    (∀ v ∈ vs, ∀ c d, v.Contains c → C c d → c = d) → vs = ws
  | _, _, .nil, _ => rfl
  | _, _, .cons h hs, hc => by
    rw [h.eq (hc _ List.mem_cons_self),
      Value.Related.eqAll hs fun v hv => hc v (List.mem_cons_of_mem _ hv)]

theorem Field.Related.eq : ∀ {f g : Field}, f.Related C g →
    (∀ c d, f.value.Contains c → C c d → c = d) → f = g
  | _, _, .mk h, hc => by rw [h.eq hc]

theorem Field.Related.eqAll : ∀ {fs gs : List Field}, List.Forall₂ (Field.Related C) fs gs →
    (∀ f ∈ fs, ∀ c d, f.value.Contains c → C c d → c = d) → fs = gs
  | _, _, .nil, _ => rfl
  | _, _, .cons h hs, hc => by
    rw [h.eq (hc _ List.mem_cons_self),
      Field.Related.eqAll hs fun f hf => hc f (List.mem_cons_of_mem _ hf)]

end

mutual

theorem Value.Related.flip : ∀ {v w : Value}, v.Related C w → w.Related (fun c d => C d c) v
  | _, _, .int => .int
  | _, _, .float => .float
  | _, _, .string => .string
  | _, _, .bool => .bool
  | _, _, .list h => .list (Value.Related.flipAll h)
  | _, _, .map h => .map (Field.Related.flipAll h)
  | _, _, .closure h => .closure h

theorem Value.Related.flipAll : ∀ {vs ws : List Value}, List.Forall₂ (Value.Related C) vs ws →
    List.Forall₂ (Value.Related fun c d => C d c) ws vs
  | _, _, .nil => .nil
  | _, _, .cons h hs => .cons h.flip (Value.Related.flipAll hs)

theorem Field.Related.flipAll : ∀ {fs gs : List Field}, List.Forall₂ (Field.Related C) fs gs →
    List.Forall₂ (Field.Related fun c d => C d c) gs fs
  | _, _, .nil => .nil
  | _, _, .cons (.mk h) hs => .cons (.mk h.flip) (Field.Related.flipAll hs)

end

/-- What is in a value is in one of its closures that is related to another. -/
theorem Value.Related.exists_of_contains {v w : Value} {c : Closure} (h : v.Related C w)
    (hc : v.Contains c) : ∃ d d', C d d' ∧ (Value.closure d).Contains c := by
  induction hc generalizing w with
  | closure =>
    cases h with
    | closure h => exact ⟨_, _, h, .closure⟩
  | item hv _ ih =>
    cases h with
    | list hitems =>
      obtain ⟨w, hvw⟩ := exists_related_of_mem hitems hv
      exact ih hvw
  | field hf _ ih =>
    cases h with
    | map hfields =>
      obtain ⟨g, hfg⟩ := exists_related_of_mem hfields hf
      exact ih hfg.value
  | captured hf hd =>
    cases h with
    | closure h => exact ⟨_, _, h, .captured hf hd⟩

mutual

/-- A value is related to itself if the closures in it are. -/
theorem Value.Related.self : ∀ {v : Value}, (∀ c, v.Contains c → C c c) → v.Related C v
  | .int _, _ => .int
  | .float _, _ => .float
  | .string _, _ => .string
  | .bool _, _ => .bool
  | .list _, hc => .list (Value.Related.selfAll fun _ hv c hcontains => hc c (.item hv hcontains))
  | .map _, hc => .map (Field.Related.selfAll fun _ hf c hcontains => hc c (.field hf hcontains))
  | .closure c, hc => .closure (hc c .closure)

theorem Value.Related.selfAll : ∀ {vs : List Value}, (∀ v ∈ vs, ∀ c, v.Contains c → C c c) →
    List.Forall₂ (Value.Related C) vs vs
  | [], _ => .nil
  | _ :: _, hc => .cons (Value.Related.self (hc _ List.mem_cons_self))
      (Value.Related.selfAll fun v hv => hc v (List.mem_cons_of_mem _ hv))

theorem Field.Related.selfAll : ∀ {fs : List Field},
    (∀ f ∈ fs, ∀ c, f.value.Contains c → C c c) → List.Forall₂ (Field.Related C) fs fs
  | [], _ => .nil
  | ⟨_, _⟩ :: _, hc => .cons (.mk (Value.Related.self (hc _ List.mem_cons_self)))
      (Field.Related.selfAll fun f hf => hc f (List.mem_cons_of_mem _ hf))

end

mutual

/-- Related values are shown alike if related closures are. -/
theorem Value.Related.render_eq (hC : ∀ c d, C c d → c.render = d.render) :
    ∀ {v w : Value}, v.Related C w → v.render = w.render
  | _, _, .int | _, _, .float | _, _, .string | _, _, .bool => rfl
  | _, _, .list h => by rw [Value.render, Value.render, Value.Related.renderAll_eq hC h]
  | _, _, .map h => by rw [Value.render, Value.render, Field.Related.renderAll_eq hC h]
  | _, _, .closure h => by rw [Value.render, Value.render, hC _ _ h]

theorem Value.Related.renderAll_eq (hC : ∀ c d, C c d → c.render = d.render) :
    ∀ {vs ws : List Value}, List.Forall₂ (Value.Related C) vs ws →
      Value.renderAll vs = Value.renderAll ws
  | _, _, .nil => rfl
  | _, _, .cons h hs => by
    rw [Value.renderAll, Value.renderAll, h.render_eq hC, Value.Related.renderAll_eq hC hs]

theorem Field.Related.renderAll_eq (hC : ∀ c d, C c d → c.render = d.render) :
    ∀ {fs gs : List Field}, List.Forall₂ (Field.Related C) fs gs →
      Field.renderAll fs = Field.renderAll gs
  | _, _, .nil => rfl
  | _, _, .cons (.mk h) hs => by
    rw [Field.renderAll, Field.renderAll, Field.render, Field.render, h.render_eq hC,
      Field.Related.renderAll_eq hC hs]

end

theorem Closure.render_congr {c d : Closure} (h : c.lambda = d.lambda) : c.render = d.render := by
  cases c
  cases d
  cases h
  rfl

theorem Value.Related.toString_eq {v w : Value} (h : v.Related C w)
    (hC : ∀ c d, C c d → c.render = d.render) : toString v = toString w :=
  congrArg String.ofList (h.render_eq hC)

/-! ## Functions that run no closure -/

theorem Field.get?_related {fs gs : List Field} (h : List.Forall₂ (Field.Related C) fs gs)
    (key : String) : Option.Rel (Value.Related C) (get? fs key) (get? gs key) := by
  induction h with
  | nil => exact .none
  | @cons f g fs gs hfg _ ih =>
    rw [get?, get?, List.find?_cons, List.find?_cons, ← hfg.key_eq]
    cases f.key == key with
    | true => exact .some hfg.value
    | false => exact ih

theorem Field.put_related {fs gs : List Field} (h : List.Forall₂ (Field.Related C) fs gs)
    (key : String) {v w : Value} (hvw : v.Related C w) :
    List.Forall₂ (Field.Related C) (put fs key v) (put gs key w) := by
  induction h with
  | nil => exact .cons (.mk hvw) .nil
  | @cons f g fs gs hfg hs ih =>
    rw [put, put, ← hfg.key_eq]
    split
    · exact .cons (.mk hvw) hs
    · exact .cons hfg ih

theorem Field.putAll_related {fs gs others others' : List Field}
    (h : List.Forall₂ (Field.Related C) fs gs)
    (ho : List.Forall₂ (Field.Related C) others others') :
    List.Forall₂ (Field.Related C) (putAll fs others) (putAll gs others') := by
  unfold putAll
  refine List.rel_foldl (fun fs gs h f g hfg => ?_) h ho
  rw [hfg.key_eq]
  exact put_related h g.key hfg.value

theorem Field.repeated?_related {fs gs : List Field} (h : List.Forall₂ (Field.Related C) fs gs)
    (seen : List String) : repeated? seen fs = repeated? seen gs := by
  induction h generalizing seen with
  | nil => rfl
  | cons hfg _ ih => rw [repeated?, repeated?, ih, hfg.key_eq]

theorem itemAt?_related {vs ws : List Value} (h : List.Forall₂ (Value.Related C) vs ws)
    (index : Int64) : Option.Rel (Value.Related C) (itemAt? vs index) (itemAt? ws index) := by
  unfold itemAt?
  split
  · exact .none
  · generalize index.toInt.toNat = k
    induction h generalizing k with
    | nil => exact .none
    | cons hvw _ ih =>
      cases k with
      | zero => exact .some hvw
      | succ k => exact ih k

theorem foldSteps?_related {v w : Value} (h : v.Related C w) :
    Option.Rel (List.Forall₂ fun p q => p.1.Related C q.1 ∧ p.2.Related C q.2)
      (foldSteps? v) (foldSteps? w) := by
  cases h with
  | list h =>
    refine .some ?_
    generalize 0 = k
    induction h generalizing k with
    | nil => exact .nil
    | cons hvw _ ih => exact .cons ⟨.int, hvw⟩ (ih (k + 1))
  | map h =>
    refine .some ?_
    refine List.rel_map (fun f g hfg => ?_) h
    exact ⟨hfg.key_eq ▸ .string, hfg.value⟩
  | _ => exact .none

def EvalFault.isTooDeep : EvalFault → Bool
  | .tooDeep _ => true
  | _ => false

/-- The fault is neither of a name nor of the nesting. -/
def EvalFault.ofValues : EvalFault → Bool
  | .unbound _ | .tooDeep _ => false
  | _ => true

theorem EvalFault.isTooDeep_of_ofValues {fault : EvalFault} (h : fault.ofValues = true) :
    fault.isTooDeep = false := by
  cases fault with
  | tooDeep => cases h
  | _ => rfl

theorem EvalFault.ne_unbound_of_ofValues {fault : EvalFault} (h : fault.ofValues = true)
    (name : String) : fault ≠ .unbound name := by
  rintro rfl
  cases h

/-- Related results, or one fault of values on both sides. -/
inductive EvalFault.Related {α β : Type} (R : α → β → Prop) :
    Except EvalFault α → Except EvalFault β → Prop where
  | ok {a : α} {b : β} : R a b → EvalFault.Related R (.ok a) (.ok b)
  | error {fault : EvalFault} :
    fault.ofValues = true → EvalFault.Related R (.error fault) (.error fault)

theorem joinLists_related {vs ws : List Value} (h : List.Forall₂ (Value.Related C) vs ws) :
    EvalFault.Related (List.Forall₂ (Value.Related C)) (joinLists vs) (joinLists ws) := by
  induction h with
  | nil => exact .ok .nil
  | @cons v w vs ws hvw _ ih =>
    cases hvw with
    | list hitems =>
      rw [joinLists, joinLists]
      generalize joinLists vs = x, joinLists ws = y at ih
      cases ih with
      | ok hjoined => exact .ok (List.rel_append hitems hjoined)
      | error hfault => exact .error hfault
    | _ => exact .error rfl

theorem concatValues_related {vs ws : List Value} (h : List.Forall₂ (Value.Related C) vs ws) :
    EvalFault.Related (Value.Related C) (concatValues vs) (concatValues ws) := by
  have hjoin := joinLists_related h
  have hempty : vs.isEmpty = ws.isEmpty := by cases h <;> rfl
  rw [concatValues, concatValues, hempty]
  split
  · exact .error rfl
  · generalize joinLists vs = x, joinLists ws = y at hjoin
    cases hjoin with
    | ok hitems => exact .ok (.list hitems)
    | error hfault => exact .error hfault

theorem putMaps_related {vs ws : List Value} (h : List.Forall₂ (Value.Related C) vs ws)
    {fs gs : List Field} (hfields : List.Forall₂ (Field.Related C) fs gs) :
    EvalFault.Related (List.Forall₂ (Field.Related C)) (putMaps fs vs) (putMaps gs ws) := by
  induction h generalizing fs gs with
  | nil => exact .ok hfields
  | cons hvw _ ih =>
    cases hvw with
    | map hothers => exact ih (Field.putAll_related hfields hothers)
    | _ => exact .error rfl

theorem mergeOperands_related {vs ws : List Value} (h : List.Forall₂ (Value.Related C) vs ws) :
    List.Forall₂ (Value.Related C) (mergeOperands vs) (mergeOperands ws) := by
  have hself := h
  cases h with
  | nil => exact .nil
  | cons hvw hrest =>
    cases hrest with
    | nil =>
      cases hvw with
      | list hitems => exact hitems
      | _ => exact hself
    | cons => cases hvw <;> exact hself

theorem mergeValues_related {vs ws : List Value} (h : List.Forall₂ (Value.Related C) vs ws) :
    EvalFault.Related (Value.Related C) (mergeValues vs) (mergeValues ws) := by
  have hmaps := putMaps_related (mergeOperands_related h) .nil
  have hempty : vs.isEmpty = ws.isEmpty := by cases h <;> rfl
  rw [mergeValues, mergeValues, hempty]
  split
  · exact .error rfl
  · generalize putMaps [] (mergeOperands vs) = x, putMaps [] (mergeOperands ws) = y at hmaps
    cases hmaps with
    | error hfault => exact .error hfault
    | @ok fs gs hfields =>
      simp only [Value.ofFields, Field.repeated?_related hfields]
      cases Field.repeated? [] gs with
      | some key => exact .error rfl
      | none => exact .ok (.map hfields)

theorem Method.alone_related {vs ws : List Value} (h : List.Forall₂ (Value.Related C) vs ws)
    {result result' : Value} (hresult : result.Related C result') :
    EvalFault.Related (Value.Related C) (alone result vs) (alone result' ws) := by
  cases h with
  | nil => exact .ok hresult
  | cons _ hrest =>
    simp only [alone, List.length_cons, hrest.length_eq]
    exact .error rfl

theorem Method.about_related {vs ws : List Value} (h : List.Forall₂ (Value.Related C) vs ws)
    (answer : List Char → Bool) :
    EvalFault.Related (Value.Related C) (about answer vs) (about answer ws) := by
  cases h with
  | nil => exact .error rfl
  | cons hvw hrest =>
    cases hrest with
    | nil =>
      cases hvw with
      | string => exact .ok .bool
      | _ => exact .error rfl
    | cons _ hrest =>
      cases hvw <;> simp only [about, List.length_cons, hrest.length_eq] <;> exact .error rfl

theorem Method.call_related {vs ws : List Value} (h : List.Forall₂ (Value.Related C) vs ws)
    (method : Method) (text : String) :
    EvalFault.Related (Value.Related C) (method.call text vs) (method.call text ws) := by
  cases method with
  | unindent | trim => exact alone_related h .string
  | lines =>
    refine alone_related h (.list (List.forall₂_same.2 fun v hv => ?_))
    obtain ⟨line, -, rfl⟩ := List.mem_map.1 hv
    exact .string
  | contains => exact about_related h fun part => Text.occursIn part text.toList
  | startsWith => exact about_related h fun part => part.isPrefixOf text.toList
  | endsWith => exact about_related h fun part => part.isSuffixOf text.toList

end

end ConfigExpr
