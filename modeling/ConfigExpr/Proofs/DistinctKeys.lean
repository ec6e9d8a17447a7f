import ConfigExpr.Proofs.Hereditary

/-!
# Keys of maps

A map literal with a repeated key has no value, and merged maps have each key once. So if the keys
of every map in the arguments are distinct, so are those of every map in the value of a program,
those that closures have captured included (`Program.distinct_keys`).
-/

namespace ConfigExpr

/-- The keys of the value are distinct if it is a map. -/
def Value.DistinctKeys : Value → Prop
  | .map fields => (fields.map (·.key)).Nodup
  | _ => True

/-- Values with distinct keys, made by any expressions. -/
def ValueProperty.distinctKeys : ValueProperty where
  holds := Value.DistinctKeys
  admits _ := True
  part _ _ := trivial
  int _ := trivial
  float _ := trivial
  string _ := trivial
  bool _ := trivial
  list _ := trivial
  map h := h
  closure_iff := Iff.rfl

theorem putMaps_error {fields : List Field} {operands : List Value} {fault : EvalFault}
    (h : putMaps fields operands = .error fault) : ∃ kind, fault = .mismatch .map kind := by
  induction operands generalizing fields with
  | nil => cases h
  | cons v operands ih =>
    unfold putMaps at h
    split at h
    next => cases h
    next heq =>
      cases heq
      exact ih h
    next heq =>
      cases heq
      cases h
      exact ⟨_, rfl⟩

/-- Merged fields have no key twice, whatever maps they come from. -/
theorem mergeValues_ne_duplicateKey (values : List Value) (key : String) :
    mergeValues values ≠ .error (.duplicateKey key) := by
  intro h
  unfold mergeValues at h
  split at h
  · cases h
  split at h
  next fault hput =>
    obtain ⟨kind, rfl⟩ := putMaps_error hput
    cases h
  next fields hput =>
    obtain ⟨maps, -, rfl⟩ := putMaps_nil_eq_ok_iff.1 hput
    unfold Value.ofFields at h
    rw [Field.repeated?_eq_none_iff.2 ⟨Field.nodup_keys_merged _, by simp⟩] at h
    cases h

namespace Program

/-- If the keys of every map in the environment or in the arguments are distinct, so are those of
every map in the value. Merging values fails for no key that appears twice. -/
theorem distinct_keys (p : Program) (run : Run) (limit : Nat) :
    (∀ env : Env, env.Everywhere Value.DistinctKeys → ∀ v, p.evaluateIn run env limit = .ok v →
      v.Everywhere Value.DistinctKeys) ∧
    (∀ arguments : List (String × Value), (∀ a ∈ arguments, a.2.Everywhere Value.DistinctKeys) →
      ∀ v, p.evaluateWith run arguments limit = .ok v → v.Everywhere Value.DistinctKeys) ∧
    ∀ values key, mergeValues values ≠ .error (.duplicateKey key) :=
  ⟨fun _ henv _ => ValueProperty.distinctKeys.everywhere_of_evaluateIn trivial henv,
    fun _ harguments _ => ValueProperty.distinctKeys.everywhere_of_evaluateWith trivial harguments,
    mergeValues_ne_duplicateKey⟩

/-- The argument is a function that has captured a map. Its value is merged with a map that has the
same key. -/
theorem distinct_keys_captured :
    let map : Value := .map [⟨"k", .int 1⟩]
    let f : Value := .closure ⟨⟨[], .name ⟨"m", ⟨6, 7⟩⟩, ⟨0, 7⟩⟩, 7, [⟨[3], "m", map⟩]⟩
    let merged : Value := .map [⟨"k", .int 1⟩, ⟨"a", .int 2⟩]
    (∀ a ∈ [("f", f)], a.2.Everywhere Value.DistinctKeys) ∧
      ∃ p, parse "[f, merge(f(), {a: 2, k: 1})]" = .ok p ∧
        p.evaluateWith ⟨0, 0⟩ [("f", f)] 9 = .ok (.list [f, merged]) ∧
        (Value.list [f, merged]).Everywhere Value.DistinctKeys := by
  intro map f merged
  let call : Expr := .apply (.name ⟨"f", ⟨10, 11⟩⟩) [] ⟨10, 13⟩
  let literal : Expr := .map
    [⟨⟨"a", ⟨16, 17⟩⟩, .int 2 ⟨19, 20⟩⟩, ⟨⟨"k", ⟨22, 23⟩⟩, .int 1 ⟨25, 26⟩⟩] ⟨15, 27⟩
  let p : Program := ⟨.list [.name ⟨"f", ⟨1, 2⟩⟩,
    .apply (.name ⟨"merge", ⟨4, 9⟩⟩) [call, literal] ⟨4, 28⟩] ⟨0, 29⟩, []⟩
  have hmap : map.Everywhere Value.DistinctKeys :=
    .intro (List.pairwise_singleton _ "k")
      (List.forall_mem_singleton.2 (.intro trivial (List.forall_mem_nil _)))
  have hf : f.Everywhere Value.DistinctKeys := .intro trivial (List.forall_mem_singleton.2 hmap)
  have harguments : ∀ a ∈ [("f", f)], a.2.Everywhere Value.DistinctKeys :=
    List.forall_mem_singleton.2 hf
  have hvalue : p.evaluateWith ⟨0, 0⟩ [("f", f)] 9 = .ok (.list [f, merged]) := by cbv
  exact ⟨harguments, p, by cbv, hvalue,
    (distinct_keys p ⟨0, 0⟩ 9).2.1 _ harguments _ hvalue⟩

end Program

end ConfigExpr
