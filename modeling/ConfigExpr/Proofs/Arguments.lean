import ConfigExpr.Proofs.Evaluates

/-!
# The environment of the arguments

The bindings of an environment, without the sites of its frames. The environment of the arguments
binds each argument, the last one innermost, so that of arguments with different names the order
does not matter (`Program.lookup?_argumentEnv_perm`).
-/

namespace ConfigExpr

namespace Env

/-- The names and values of the frames, innermost first. -/
def bindings (env : Env) : List (String × Value) :=
  env.map fun f => (f.name, f.value)

theorem names_eq_map_bindings (env : Env) : env.names = env.bindings.map (·.1) := by
  rw [bindings, List.map_map]
  rfl

theorem lookup?_eq_none_iff {env : Env} {name : String} :
    env.lookup? name = none ↔ name ∉ env.names := by
  simp [lookup?, names]

theorem exists_of_lookup? {env : Env} {name : String} {v : Value}
    (h : env.lookup? name = some v) : ∃ f ∈ env, f.value = v := by
  obtain ⟨f, hf, hv⟩ := Option.map_eq_some_iff.1 h
  exact ⟨f, List.mem_of_find?_eq_some hf, hv⟩

theorem lookup?_cons (f : Frame) (env : Env) (name : String) :
    lookup? (f :: env) name = if f.name = name then some f.value else env.lookup? name := by
  by_cases h : f.name = name <;> simp [lookup?, h]

theorem lookup?_eq_find?_bindings (env : Env) (name : String) :
    env.lookup? name = (env.bindings.find? (·.1 == name)).map (·.2) := by
  rw [lookup?, bindings, List.find?_map, Option.map_map]
  rfl

theorem lookup?_eq_some_iff_of_nodup {env : Env} {name : String} {v : Value}
    (h : env.names.Nodup) : env.lookup? name = some v ↔ (name, v) ∈ env.bindings := by
  induction env with
  | nil => simp [lookup?, bindings]
  | cons f env ih =>
    have hf : f.name ∉ names env := (List.nodup_cons.1 h).1
    have hbindings : bindings (f :: env) = (f.name, f.value) :: bindings env := rfl
    rw [lookup?_cons, hbindings, List.mem_cons, ← ih (List.nodup_cons.1 h).2]
    split
    next hname =>
      have hnone : lookup? env name = none := lookup?_eq_none_iff.2 (hname ▸ hf)
      simp [hname, hnone, eq_comm]
    next hname => simp [Ne.symm hname]

end Env

theorem Scope.bindings_bindAll (scope : Scope) (k : Nat) (added : List (String × Value)) :
    (scope.bindAll k added).env.bindings = added.reverse ++ scope.env.bindings := by
  induction added generalizing scope k with
  | nil => rfl
  | cons b added ih =>
    obtain ⟨name, value⟩ := b
    rw [bindAll, ih, List.reverse_cons, List.append_assoc]
    rfl

namespace Program

theorem bindings_argumentEnv (run : Run) (arguments : List (String × Value)) :
    (argumentEnv run arguments).bindings = arguments.reverse := by
  rw [argumentEnv, Scope.bindings_bindAll]
  exact List.append_nil _

theorem lookup?_argumentEnv (run run' : Run) (arguments : List (String × Value)) (name : String) :
    (argumentEnv run arguments).lookup? name = (argumentEnv run' arguments).lookup? name := by
  rw [Env.lookup?_eq_find?_bindings, Env.lookup?_eq_find?_bindings, bindings_argumentEnv,
    bindings_argumentEnv]

theorem mem_of_mem_argumentEnv {run : Run} {arguments : List (String × Value)} {f : Frame}
    (h : f ∈ argumentEnv run arguments) : (f.name, f.value) ∈ arguments := by
  have hf : (f.name, f.value) ∈ (argumentEnv run arguments).bindings := List.mem_map_of_mem h
  rwa [bindings_argumentEnv, List.mem_reverse] at hf

theorem names_argumentEnv (run : Run) (arguments : List (String × Value)) :
    (argumentEnv run arguments).names = (arguments.map (·.1)).reverse := by
  rw [Env.names_eq_map_bindings, bindings_argumentEnv, List.map_reverse]

theorem lookup?_argumentEnv_perm {run run' : Run} {arguments arguments' : List (String × Value)}
    (h : arguments.Perm arguments') (hnodup : (arguments.map (·.1)).Nodup) (name : String) :
    (argumentEnv run arguments).lookup? name = (argumentEnv run' arguments').lookup? name := by
  have hnames : (argumentEnv run arguments).names.Nodup := by
    rw [names_argumentEnv]
    exact (List.reverse_perm _).nodup_iff.2 hnodup
  have hnames' : (argumentEnv run' arguments').names.Nodup := by
    rw [names_argumentEnv]
    exact ((List.reverse_perm _).trans (h.map _).symm).nodup_iff.2 hnodup
  refine Option.ext fun v => ?_
  rw [Env.lookup?_eq_some_iff_of_nodup hnames, Env.lookup?_eq_some_iff_of_nodup hnames',
    bindings_argumentEnv, bindings_argumentEnv, List.mem_reverse, List.mem_reverse, h.mem_iff]

theorem parameterValues_cons (env : Env) (n : Name) (parameters : List Name) :
    parameterValues env (n :: parameters) =
      match env.lookup? n.text with
      | none => .error ⟨.unbound n.text, n.span⟩
      | some v => parameterValues env parameters >>= fun values => .ok (v :: values) :=
  rfl

/-- The values of parameters are those of frames. -/
theorem exists_of_mem_parameterValues {env : Env} {parameters : List Name} {values : List Value}
    (h : parameterValues env parameters = .ok values) : ∀ v ∈ values, ∃ f ∈ env, f.value = v := by
  induction parameters generalizing values with
  | nil =>
    cases h
    nofun
  | cons n parameters ih =>
    rw [parameterValues_cons] at h
    split at h
    next => cases h
    next v hv =>
      obtain ⟨rest, hrest, ⟨⟩⟩ := bind_eq_ok_iff.1 h
      intro w hw
      rcases List.mem_cons.1 hw with rfl | hw
      · exact Env.exists_of_lookup? hv
      · exact ih hrest w hw

/-- A parameter that has no value is one whose name is not bound. -/
theorem exists_of_parameterValues_error {env : Env} {parameters : List Name} {e : EvalError}
    (h : parameterValues env parameters = .error e) :
    ∃ n ∈ parameters, n.text ∉ env.names ∧ e = ⟨.unbound n.text, n.span⟩ := by
  induction parameters with
  | nil => cases h
  | cons n parameters ih =>
    rw [parameterValues_cons] at h
    split at h
    next hnone =>
      cases h
      exact ⟨n, List.mem_cons_self, Env.lookup?_eq_none_iff.1 hnone, rfl⟩
    next v hv =>
      cases hrest : parameterValues env parameters with
      | ok rest =>
        rw [hrest] at h
        cases h
      | error e' =>
        rw [hrest] at h
        cases h
        obtain ⟨m, hm, hnot, he⟩ := ih hrest
        exact ⟨m, List.mem_cons_of_mem n hm, hnot, he⟩

end Program

end ConfigExpr
