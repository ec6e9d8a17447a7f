import ConfigExpr.Proofs.Arguments
import ConfigExpr.Proofs.Everywhere
import ConfigExpr.Value.Render

/-!
# Properties of all values in a value

The values in a value are its items, those of its fields and those that a closure has captured.
`Value.Everywhere p` says that `p` holds of a value, the values in it, those in them and so on. A
`ValueProperty` is one that the rules of evaluation give to the values they make, so evaluation
keeps it everywhere (`ValueProperty.everywhere_of_evaluates`).
-/

namespace ConfigExpr

namespace Value

/-- The values directly in a value. -/
def parts : Value → List Value
  | .list items => items
  | .map fields => fields.map (·.value)
  | .closure c => c.env.map (·.value)
  | _ => []

inductive Everywhere (p : Value → Prop) : Value → Prop where
  | intro {v : Value} : p v → (∀ w ∈ v.parts, Everywhere p w) → Everywhere p v

variable {p : Value → Prop} {v : Value}

theorem Everywhere.self (h : v.Everywhere p) : p v := by
  cases h
  assumption

theorem Everywhere.part {w : Value} (h : v.Everywhere p) (hw : w ∈ v.parts) : w.Everywhere p := by
  cases h with
  | intro _ hparts => exact hparts w hw

theorem Everywhere.imp {q : Value → Prop} (h : v.Everywhere p) (hpq : ∀ w, p w → q w) :
    v.Everywhere q := by
  induction h with
  | intro hp _ ih => exact .intro (hpq _ hp) ih

end Value

/-- The value of each frame has the property everywhere. -/
def Env.Everywhere (p : Value → Prop) (env : Env) : Prop :=
  ∀ f ∈ env, f.value.Everywhere p

theorem Env.Everywhere.extend {p : Value → Prop} {env : Env} {site : Site} {name : String}
    {v : Value} (hv : v.Everywhere p) (h : env.Everywhere p) :
    (env.extend site name v).Everywhere p :=
  List.forall_mem_cons.2 ⟨hv, h⟩

theorem Env.Everywhere.lookup? {p : Value → Prop} {env : Env} {name : String} {v : Value}
    (h : env.Everywhere p) (hv : env.lookup? name = some v) : v.Everywhere p := by
  obtain ⟨f, hf, rfl⟩ := Env.exists_of_lookup? hv
  exact h f hf

theorem Env.everywhere_argumentEnv {p : Value → Prop} (run : Run)
    {arguments : List (String × Value)} (h : ∀ a ∈ arguments, a.2.Everywhere p) :
    Env.Everywhere p (Program.argumentEnv run arguments) :=
  fun f hf => h (f.name, f.value) (Program.mem_of_mem_argumentEnv hf)

theorem Field.exists_of_get? {fields : List Field} {key : String} {v : Value}
    (h : get? fields key = some v) : ∃ f ∈ fields, f.value = v := by
  obtain ⟨f, hf, hv⟩ := Option.map_eq_some_iff.1 h
  exact ⟨f, List.mem_of_find?_eq_some hf, hv⟩

theorem Field.exists_of_mem_merged {fields : List Field} {f : Field} (h : f ∈ merged fields) :
    ∃ g ∈ fields, g.value = f.value := by
  obtain ⟨key, -, hkey⟩ := List.mem_filterMap.1 h
  obtain ⟨v, hv, rfl⟩ := Option.map_eq_some_iff.1 hkey
  obtain ⟨g, hg, hvalue⟩ := exists_of_get? hv
  exact ⟨g, List.mem_reverse.1 hg, hvalue⟩

/-- A property of values apart from the values in them, which a value that is made has, and a
property of the expressions it is made by. -/
structure ValueProperty where
  holds : Value → Prop
  admits : Expr → Prop
  part : ∀ {e x}, admits e → x ∈ e.parts → admits x
  int : ∀ v, holds (.int v)
  float : ∀ {v s}, admits (.float v s) → holds (.float v)
  string : ∀ text, holds (.string text)
  bool : ∀ v, holds (.bool v)
  list : ∀ items, holds (.list items)
  map : ∀ {fields : List Field}, (fields.map (·.key)).Nodup → holds (.map fields)
  closure_iff : ∀ {c : Closure}, holds (.closure c) ↔ admits c.lambda.toExpr

namespace ValueProperty

variable {P : ValueProperty}

/-! ## Values of one rule -/

theorem everywhere_int (v : Int64) : (Value.int v).Everywhere P.holds :=
  .intro (P.int v) (List.forall_mem_nil _)

theorem everywhere_string (text : String) : (Value.string text).Everywhere P.holds :=
  .intro (P.string text) (List.forall_mem_nil _)

theorem everywhere_bool (v : Bool) : (Value.bool v).Everywhere P.holds :=
  .intro (P.bool v) (List.forall_mem_nil _)

theorem everywhere_list {items : List Value} (h : ∀ v ∈ items, v.Everywhere P.holds) :
    (Value.list items).Everywhere P.holds :=
  .intro (P.list items) h

theorem everywhere_map {fields : List Field} (hkeys : (fields.map (·.key)).Nodup)
    (h : ∀ f ∈ fields, f.value.Everywhere P.holds) : (Value.map fields).Everywhere P.holds :=
  .intro (P.map hkeys) (List.forall_mem_map.2 h)

theorem everywhere_merged {maps : List (List Field)}
    (h : ∀ fields ∈ maps, (Value.map fields).Everywhere P.holds) :
    (Value.map (Field.merged maps.flatten)).Everywhere P.holds := by
  refine everywhere_map (Field.nodup_keys_merged _) fun f hf => ?_
  obtain ⟨g, hg, hvalue⟩ := Field.exists_of_mem_merged hf
  obtain ⟨fields, hfields, hg⟩ := List.mem_flatten.1 hg
  exact hvalue ▸ (h fields hfields).part (List.mem_map_of_mem hg)

theorem everywhere_get? {fields : List Field} {key : String} {v : Value}
    (h : (Value.map fields).Everywhere P.holds) (hv : Field.get? fields key = some v) :
    v.Everywhere P.holds := by
  obtain ⟨f, hf, rfl⟩ := Field.exists_of_get? hv
  exact h.part (List.mem_map_of_mem hf)

theorem everywhere_stringMethod {text name : String} {arguments : List Value} {v : Value}
    (h : StringMethod text name arguments v) : v.Everywhere P.holds := by
  cases h with
  | unindent | trim => exact everywhere_string _
  | lines => exact everywhere_list (List.forall_mem_map.2 fun _ _ => everywhere_string _)
  | contains | startsWith | endsWith => exact everywhere_bool _

/-- What a fold passes to its function. -/
def HoldsSteps (P : ValueProperty) (steps : List (Value × Value)) : Prop :=
  ∀ s ∈ steps, s.1.Everywhere P.holds ∧ s.2.Everywhere P.holds

theorem holdsSteps_list {items : List Value} (h : (Value.list items).Everywhere P.holds) :
    P.HoldsSteps (items.zipIdx.map fun (item, i) => (.int (Int64.ofNat i), item)) := by
  refine List.forall_mem_map.2 fun s hs => ⟨everywhere_int _, h.part ?_⟩
  exact List.fst_mem_of_mem_zipIdx hs

theorem holdsSteps_map {fields : List Field} (h : (Value.map fields).Everywhere P.holds) :
    P.HoldsSteps (fields.map fun f => (.string f.key, f.value)) :=
  List.forall_mem_map.2 fun _ hf => ⟨everywhere_string _, h.part (List.mem_map_of_mem hf)⟩

theorem everywhere_bindAll {added : List (String × Value)} {scope : Scope}
    (hadded : ∀ b ∈ added, b.2.Everywhere P.holds) (henv : scope.env.Everywhere P.holds) (k : Nat) :
    (scope.bindAll k added).env.Everywhere P.holds := by
  induction added generalizing scope k with
  | nil => exact henv
  | cons b added ih =>
    obtain ⟨hb, hothers⟩ := List.forall_mem_cons.1 hadded
    exact ih hothers (.extend hb henv) (k + 1)

/-! ## Evaluation -/

mutual

/-- From an environment that has the property everywhere comes a value that has it everywhere. -/
theorem everywhere_of_evaluates : ∀ {n : Nat} {scope : Scope} {e : Expr} {v : Value},
    Evaluates n scope e v → P.admits e → scope.env.Everywhere P.holds → v.Everywhere P.holds
  | _, _, _, _, .int, _, _ => everywhere_int _
  | _, _, _, _, .float, he, _ => .intro (P.float he) (List.forall_mem_nil _)
  | _, _, _, _, .bool, _, _ => everywhere_bool _
  | _, _, _, _, .template _, _, _ => everywhere_string _
  | _, _, _, _, .name h, _, henv => henv.lookup? h
  | _, _, _, _, .letIn hbinds hbody, he, henv => by
    have hinner := everywhere_of_binds hbinds
      (fun b hb => P.part he (List.mem_append_left _ (List.mem_map_of_mem hb))) henv
    exact everywhere_of_evaluates hbody (P.part he (by simp [Expr.parts])) hinner
  | _, _, _, _, .lambda, he, henv => .intro (P.closure_iff.2 he) (List.forall_mem_map.2 henv)
  | _, _, _, _, .apply hcallee harguments hruns, he, henv => by
    have hc := everywhere_of_evaluates hcallee (P.part he List.mem_cons_self) henv
    have hvalues := everywhere_of_evaluatesAll harguments
      (fun x hx => P.part he (List.mem_cons_of_mem _ hx)) henv
    exact everywhere_of_runs hruns hc hvalues
  | _, _, _, _, .concat _ _ harguments _, he, henv => by
    have hvalues := everywhere_of_evaluatesAll harguments
      (fun x hx => P.part he (List.mem_cons_of_mem _ hx)) henv
    refine everywhere_list fun v hv => ?_
    obtain ⟨items, hitems, hv⟩ := List.mem_flatten.1 hv
    exact (hvalues _ (List.mem_map_of_mem hitems)).part hv
  | _, _, _, _, .merge _ _ harguments _, he, henv => by
    have hvalues := everywhere_of_evaluatesAll harguments
      (fun x hx => P.part he (List.mem_cons_of_mem _ hx)) henv
    exact everywhere_merged (List.forall_mem_map.1 hvalues)
  | _, _, _, _, .mergeList _ _ harguments, he, henv => by
    have hvalues := everywhere_of_evaluatesAll harguments
      (fun x hx => P.part he (List.mem_cons_of_mem _ hx)) henv
    have hlist := hvalues _ List.mem_cons_self
    exact everywhere_merged (List.forall_mem_map.1 fun _ => hlist.part)
  | _, _, _, _, .foldList _ _ harguments hfolds, he, henv => by
    have hvalues := everywhere_of_evaluatesAll harguments
      (fun x hx => P.part he (List.mem_cons_of_mem _ hx)) henv
    exact everywhere_of_folds hfolds (hvalues _ (by simp)) (hvalues _ (by simp))
      (holdsSteps_list (hvalues _ (by simp)))
  | _, _, _, _, .foldMap _ _ harguments hfolds, he, henv => by
    have hvalues := everywhere_of_evaluatesAll harguments
      (fun x hx => P.part he (List.mem_cons_of_mem _ hx)) henv
    exact everywhere_of_folds hfolds (hvalues _ (by simp)) (hvalues _ (by simp))
      (holdsSteps_map (hvalues _ (by simp)))
  | _, _, _, _, .map hentries hkeys, he, henv =>
    everywhere_map hkeys (everywhere_of_evaluatesEntries hentries
      (fun x hx => P.part he (List.mem_map_of_mem hx)) henv)
  | _, _, _, _, .list hitems, he, henv =>
    everywhere_list (everywhere_of_evaluatesAll hitems (fun _ => P.part he) henv)
  | _, _, _, _, .member hreceiver hv, he, henv =>
    everywhere_get? (everywhere_of_evaluates hreceiver (P.part he List.mem_cons_self) henv) hv
  | _, _, _, _, .mapMethod hreceiver harguments hv hruns, he, henv => by
    have hmap := everywhere_of_evaluates hreceiver (P.part he List.mem_cons_self) henv
    have hvalues := everywhere_of_evaluatesAll harguments
      (fun x hx => P.part he (List.mem_cons_of_mem _ hx)) henv
    exact everywhere_of_runs hruns (everywhere_get? hmap hv) hvalues
  | _, _, _, _, .stringMethod _ _ hv, _, _ => everywhere_stringMethod hv
  | _, _, _, _, .indexMap hreceiver _ hv, he, henv =>
    everywhere_get? (everywhere_of_evaluates hreceiver (P.part he List.mem_cons_self) henv) hv
  | _, _, _, _, .indexList hreceiver _ _ hv, he, henv => by
    have hlist := everywhere_of_evaluates hreceiver (P.part he List.mem_cons_self) henv
    exact hlist.part (List.mem_of_getElem? hv)

theorem everywhere_of_evaluatesAll : ∀ {n : Nat} {scope : Scope} {k : Nat} {es : List Expr}
    {vs : List Value}, EvaluatesAll n scope k es vs → (∀ e ∈ es, P.admits e) →
    scope.env.Everywhere P.holds → ∀ v ∈ vs, v.Everywhere P.holds
  | _, _, _, _, _, .nil, _, _ => List.forall_mem_nil _
  | _, _, _, _, _, .cons h hs, hes, henv => by
    obtain ⟨he, hes⟩ := List.forall_mem_cons.1 hes
    exact List.forall_mem_cons.2 ⟨everywhere_of_evaluates h he henv,
      everywhere_of_evaluatesAll hs hes henv⟩

theorem everywhere_of_runs : ∀ {n : Nat} {c : Closure} {site : Site} {arguments : List Value}
    {v : Value}, Runs n c site arguments v → (Value.closure c).Everywhere P.holds →
    (∀ w ∈ arguments, w.Everywhere P.holds) → v.Everywhere P.holds
  | _, _, _, _, _, .body _ hbody, hc, harguments => by
    refine everywhere_of_evaluates hbody
      (P.part (P.closure_iff.1 hc.self) (List.mem_singleton_self _)) ?_
    exact everywhere_bindAll (fun b hb => harguments _ (List.of_mem_zip hb).2)
      (List.forall_mem_map.1 fun _ => hc.part) 0

theorem everywhere_of_folds : ∀ {n : Nat} {c : Closure} {site : Site} {k : Nat} {first v : Value}
    {steps : List (Value × Value)}, Folds n c site k first steps v →
    (Value.closure c).Everywhere P.holds → first.Everywhere P.holds → P.HoldsSteps steps →
    v.Everywhere P.holds
  | _, _, _, _, _, _, _, .nil, _, hfirst, _ => hfirst
  | _, _, _, _, _, _, _, .cons hruns hfolds, hc, hfirst, hsteps => by
    obtain ⟨⟨hindex, hitem⟩, hothers⟩ := List.forall_mem_cons.1 hsteps
    have hnext := everywhere_of_runs hruns hc (by simp [hfirst, hindex, hitem])
    exact everywhere_of_folds hfolds hc hnext hothers

theorem everywhere_of_binds : ∀ {n : Nat} {scope inner : Scope} {k l : Nat} {bs : List Binding},
    Binds n scope k bs l inner → (∀ b ∈ bs, P.admits b.value) →
    scope.env.Everywhere P.holds → inner.env.Everywhere P.holds
  | _, _, _, _, _, _, .nil, _, henv => henv
  | _, _, _, _, _, _, .cons h hbinds, hbs, henv => by
    obtain ⟨hb, hbs⟩ := List.forall_mem_cons.1 hbs
    have hvalue := everywhere_of_evaluates h hb henv
    exact everywhere_of_binds hbinds hbs (.extend hvalue henv)

theorem everywhere_of_evaluatesEntries : ∀ {n : Nat} {scope : Scope} {k : Nat} {es : List Entry}
    {fields : List Field}, EvaluatesEntries n scope k es fields → (∀ e ∈ es, P.admits e.value) →
    scope.env.Everywhere P.holds → ∀ f ∈ fields, f.value.Everywhere P.holds
  | _, _, _, _, _, .nil, _, _ => List.forall_mem_nil _
  | _, _, _, _, _, .cons h hs, hes, henv => by
    obtain ⟨he, hes⟩ := List.forall_mem_cons.1 hes
    exact List.forall_mem_cons.2 ⟨everywhere_of_evaluates h he henv,
      everywhere_of_evaluatesEntries hs hes henv⟩

end

variable {p : Program} {run : Run} {limit : Nat} {v : Value} (hp : P.admits p.expression)

include hp

theorem everywhere_of_evaluateIn {env : Env} (henv : env.Everywhere P.holds)
    (h : p.evaluateIn run env limit = .ok v) : v.Everywhere P.holds := by
  obtain ⟨n, -, hv⟩ := (Expr.eval_agrees limit limit).1 h
  exact everywhere_of_evaluates hv hp henv

theorem everywhere_of_evaluateWith {arguments : List (String × Value)}
    (harguments : ∀ a ∈ arguments, a.2.Everywhere P.holds)
    (h : p.evaluateWith run arguments limit = .ok v) : v.Everywhere P.holds := by
  have henv := Env.everywhere_argumentEnv run harguments
  obtain ⟨w, hw, h⟩ := bind_eq_ok_iff.1 h
  have hvalue := everywhere_of_evaluateIn hp henv hw
  split at h
  next c =>
    obtain ⟨values, hvalues, happly⟩ := bind_eq_ok_iff.1 h
    obtain ⟨n, -, hruns⟩ := (apply_eq_ok_iff (Expr.eval_agrees limit limit)).1 happly
    refine everywhere_of_runs hruns hvalue fun u hu => ?_
    obtain ⟨f, hf, rfl⟩ := Program.exists_of_mem_parameterValues hvalues u hu
    exact henv f hf
  next =>
    cases h
    exact hvalue

end ValueProperty

end ConfigExpr
