import ConfigExpr.Proofs.Builtins
import Mathlib.Data.List.Forall2
import Mathlib.Data.List.Induction

/-!
# Unions of maps

The union of maps has each key once, where it appears first, with its value in the last map that
has it. It is the only list of fields of that kind (`Field.IsUnion.unique`), and the union of the
unions of groups is the union of all maps (`Field.IsUnion.of_groups`). So maps are merged into
their union, in groups or all at once (`Builtin.merge_union`).
-/

namespace ConfigExpr

namespace Field

/-- The fields are the maps put together: the keys in the order in which they appear first, each
with its value in the last map that has it. -/
structure IsUnion (maps : List (List Field)) (fields : List Field) : Prop where
  keys : fields.map (·.key) = (maps.flatten.map (·.key)).eraseDups
  value : ∀ key, get? fields key = maps.reverse.findSome? (get? · key)

/-! ## Look-up -/

theorem get?_cons (f : Field) (fields : List Field) (key : String) :
    get? (f :: fields) key = if f.key = key then some f.value else get? fields key := by
  by_cases h : f.key = key <;> simp [get?, h]

theorem get?_append (fields others : List Field) (key : String) :
    get? (fields ++ others) key = (get? fields key).or (get? others key) := by
  rw [get?, List.find?_append, Option.map_or]
  rfl

theorem get?_eq_some_iff_of_nodup {fields : List Field} (h : (fields.map (·.key)).Nodup)
    {key : String} {v : Value} : get? fields key = some v ↔ ⟨key, v⟩ ∈ fields := by
  induction fields with
  | nil => simp [get?]
  | cons f fields ih =>
    obtain ⟨hf, hfields⟩ := List.nodup_cons.1 h
    rw [get?_cons, List.mem_cons, ← ih hfields]
    split
    next hkey =>
      subst hkey
      have hnone : get? fields f.key = none := by
        rw [← Option.not_isSome_iff_eq_none, get?_isSome]
        exact hf
      cases f
      simp [hnone, eq_comm]
    next hkey =>
      refine (or_iff_right ?_).symm
      rintro rfl
      exact hkey rfl

theorem get?_reverse_of_nodup {fields : List Field} (h : (fields.map (·.key)).Nodup)
    (key : String) : get? fields.reverse key = get? fields key := by
  have hreverse : (fields.reverse.map (·.key)).Nodup := by
    rw [List.map_reverse]
    exact (List.reverse_perm _).nodup_iff.2 h
  refine Option.ext fun v => ?_
  rw [get?_eq_some_iff_of_nodup hreverse, get?_eq_some_iff_of_nodup h, List.mem_reverse]

/-- Of maps with distinct keys the last field with a key is that of the last map that has it. -/
theorem get?_reverse_flatten {maps : List (List Field)}
    (h : ∀ m ∈ maps, (m.map (·.key)).Nodup) (key : String) :
    get? maps.flatten.reverse key = maps.reverse.findSome? (get? · key) := by
  induction maps with
  | nil => rfl
  | cons m maps ih =>
    obtain ⟨hm, hmaps⟩ := List.forall_mem_cons.1 h
    rw [List.flatten_cons, List.reverse_append, get?_append, ih hmaps, get?_reverse_of_nodup hm,
      List.reverse_cons, List.findSome?_append]
    simp

theorem get?_ofKeys (keys : List String) (value? : String → Option Value) (key : String) :
    get? (ofKeys keys value?) key = if key ∈ keys then value? key else none := by
  induction keys with
  | nil => rfl
  | cons k keys ih =>
    cases hk : value? k with
    | none =>
      have hskip : ofKeys (k :: keys) value? = ofKeys keys value? := by simp [ofKeys, hk]
      rw [hskip, ih]
      by_cases hkey : key = k
      · subst hkey
        simp [hk]
      · simp [hkey]
    | some v =>
      rw [ofKeys_cons hk, get?_cons, ih]
      by_cases hkey : k = key
      · subst hkey
        simp [hk]
      · simp [hkey, Ne.symm hkey]

theorem get?_merged (fields : List Field) (key : String) :
    get? (merged fields) key = get? fields.reverse key := by
  rw [merged_eq_ofKeys, get?_ofKeys]
  split
  next => rfl
  next hkey =>
    rw [eq_comm, ← Option.not_isSome_iff_eq_none, get?_isSome, List.map_reverse, List.mem_reverse]
    exact mt List.mem_eraseDups.2 hkey

/-- Fields with distinct keys are given by their keys and values. -/
theorem eq_ofKeys_of_nodup {fields : List Field} (h : (fields.map (·.key)).Nodup) :
    fields = ofKeys (fields.map (·.key)) (get? fields) := by
  induction fields with
  | nil => rfl
  | cons f fields ih =>
    obtain ⟨hf, hfields⟩ := List.nodup_cons.1 h
    have hfirst : get? (f :: fields) f.key = some f.value := by rw [get?_cons, if_pos rfl]
    have hothers : ∀ key ∈ fields.map (·.key), get? fields key = get? (f :: fields) key := by
      intro key hkey
      rw [get?_cons, if_neg (ne_of_mem_of_not_mem hkey hf).symm]
    rw [List.map_cons, ofKeys_cons hfirst, ← ofKeys_congr hothers, ← ih hfields]
    cases f
    rfl

/-! ## Unions -/

section

variable {maps : List (List Field)} {fields others : List Field}

theorem IsUnion.unique (h : IsUnion maps fields) (h' : IsUnion maps others) : fields = others := by
  have hdistinct : ∀ fs, IsUnion maps fs → (fs.map (·.key)).Nodup := by
    intro fs hfs
    rw [hfs.keys]
    exact nodup_eraseDups _
  calc
    fields = ofKeys (fields.map (·.key)) (get? fields) := eq_ofKeys_of_nodup (hdistinct _ h)
    _ = ofKeys (others.map (·.key)) (get? others) := by
      rw [h.keys, h'.keys]
      exact ofKeys_congr fun key _ => (h.value key).trans (h'.value key).symm
    _ = others := (eq_ofKeys_of_nodup (hdistinct _ h')).symm

theorem isUnion_merged (h : ∀ m ∈ maps, (m.map (·.key)).Nodup) :
    IsUnion maps (merged maps.flatten) where
  keys := by rw [merged_eq_ofKeys, map_key_ofKeys get?_reverse_isSome]
  value key := (get?_merged _ key).trans (get?_reverse_flatten h key)

theorem eraseDups_append_eraseDups (keys others : List String) :
    (keys ++ others.eraseDups).eraseDups = (keys ++ others).eraseDups := by
  induction others using List.reverseRecOn with
  | nil => simp
  | append_singleton others key ih =>
    rw [eraseDups_append_singleton, ← List.append_assoc, eraseDups_append_singleton, ← ih]
    by_cases h : key ∈ others.eraseDups
    · have hmem : key ∈ (keys ++ others.eraseDups).eraseDups :=
        List.mem_eraseDups.2 (List.mem_append_right _ h)
      rw [if_pos h, if_pos hmem]
    · rw [if_neg h, ← List.append_assoc, eraseDups_append_singleton]

theorem eraseDups_eraseDups_append (keys others : List String) :
    (keys.eraseDups ++ others).eraseDups = (keys ++ others).eraseDups := by
  have hkeys : keys.eraseDups.eraseDups = keys.eraseDups := eraseDups_append_eraseDups [] keys
  have hothers : others.removeAll keys.eraseDups = others.removeAll keys := by
    simp [List.removeAll]
  rw [List.eraseDups_append, List.eraseDups_append, hkeys, hothers]

variable {groups : List (List (List Field))} {unions : List (List Field)}

theorem eraseDups_keys_of_groups (h : List.Forall₂ IsUnion groups unions) :
    (unions.flatten.map (·.key)).eraseDups = (groups.flatten.flatten.map (·.key)).eraseDups := by
  induction h with
  | nil => rfl
  | cons hu _ ih =>
    simp only [List.flatten_cons, List.flatten_append, List.map_append]
    rw [hu.keys, eraseDups_eraseDups_append, ← eraseDups_append_eraseDups, ih,
      eraseDups_append_eraseDups]

theorem findSome?_of_groups (h : List.Forall₂ IsUnion groups unions) (key : String) :
    unions.reverse.findSome? (get? · key) = groups.flatten.reverse.findSome? (get? · key) := by
  induction h with
  | nil => rfl
  | cons hu _ ih =>
    rw [List.flatten_cons, List.reverse_cons, List.reverse_append, List.findSome?_append,
      List.findSome?_append, ih, ← hu.value]
    simp

theorem IsUnion.of_groups (h : List.Forall₂ IsUnion groups unions) (hf : IsUnion unions fields) :
    IsUnion groups.flatten fields where
  keys := hf.keys.trans (eraseDups_keys_of_groups h)
  value key := (hf.value key).trans (findSome?_of_groups h key)

theorem merged_groups (h : ∀ g ∈ groups, ∀ m ∈ g, (m.map (·.key)).Nodup) :
    merged (groups.map fun g => merged g.flatten).flatten = merged groups.flatten.flatten := by
  have hunions : List.Forall₂ IsUnion groups (groups.map fun g => merged g.flatten) :=
    List.forall₂_map_right_iff.2 (List.forall₂_same.2 fun g hg => isUnion_merged (h g hg))
  have hnodup : ∀ u ∈ groups.map fun g => merged g.flatten, (u.map (·.key)).Nodup :=
    List.forall_mem_map.2 fun g _ => nodup_keys_merged g.flatten
  have hall : ∀ m ∈ groups.flatten, (m.map (·.key)).Nodup := by
    intro m hm
    obtain ⟨g, hg, hm⟩ := List.mem_flatten.1 hm
    exact h g hg m hm
  exact (IsUnion.of_groups hunions (isUnion_merged hnodup)).unique (isUnion_merged hall)

end

end Field

/-! ## Merging -/

theorem mergeOperands_eq_self {arguments : List Value} (h : ∀ items, arguments ≠ [.list items]) :
    mergeOperands arguments = arguments := by
  unfold mergeOperands
  split
  next items => exact absurd rfl (h items)
  next => rfl

theorem putMaps_of_not_map {fields : List Field} (maps : List (List Field)) {v : Value}
    (h : ∀ fs, v ≠ .map fs) (others : List Value) :
    putMaps fields (maps.map .map ++ v :: others) = .error (.mismatch .map v.kind) := by
  induction maps generalizing fields with
  | nil =>
    cases v with
    | map fs => exact absurd rfl (h fs)
    | _ => rfl
  | cons m maps ih => exact ih

namespace Builtin

section

variable (eval : Evaluator) (site : Site) (span : Span)

theorem call_merge_of_maps {maps : List (List Field)} {arguments : List Value}
    (h : arguments = maps.map .map ∧ maps ≠ [] ∨ arguments = [.list (maps.map .map)]) :
    Builtin.merge.call eval site arguments span = .ok (.map (Field.merged maps.flatten)) := by
  rw [call, mergeValues_eq_ok_iff.2 ⟨maps, h, rfl⟩]
  rfl

/-- The first operand that is no map is the fault. -/
theorem call_merge_of_not_map {maps : List (List Field)} {v : Value} {others arguments : List Value}
    (h : mergeOperands arguments = maps.map .map ++ v :: others) (hv : ∀ fields, v ≠ .map fields) :
    Builtin.merge.call eval site arguments span = .error ⟨.mismatch .map v.kind, span⟩ := by
  have hne : arguments.isEmpty ≠ true := by
    intro hempty
    rw [List.isEmpty_iff.1 hempty] at h
    exact absurd h (by simp [mergeOperands])
  rw [call, mergeValues, if_neg hne, h, putMaps_of_not_map maps hv others]
  rfl

end

/-- Maps are merged into their union, as arguments or as the items of one list, and in groups too.
The first argument or item that is no map is the fault. -/
theorem merge_union (eval : Evaluator) (site : Site) (span : Span) :
    (∀ maps : List (List Field), (∀ m ∈ maps, (m.map (·.key)).Nodup) →
      ∃ fields, Field.IsUnion maps fields ∧
        (maps ≠ [] → Builtin.merge.call eval site (maps.map .map) span = .ok (.map fields)) ∧
        Builtin.merge.call eval site [.list (maps.map .map)] span = .ok (.map fields)) ∧
    (∀ groups : List (List (List Field)), groups ≠ [] → (∀ g ∈ groups, g ≠ []) →
      (∀ g ∈ groups, ∀ m ∈ g, (m.map (·.key)).Nodup) →
      ∃ unions : List Value,
        List.Forall₂ (fun g u => Builtin.merge.call eval site (g.map .map) span = .ok u)
          groups unions ∧
        Builtin.merge.call eval site unions span =
          Builtin.merge.call eval site (groups.flatten.map .map) span) ∧
    (∀ (maps : List (List Field)) (v : Value) (others : List Value), (∀ fields, v ≠ .map fields) →
      ((∀ items, maps.map .map ++ v :: others ≠ [.list items]) →
        Builtin.merge.call eval site (maps.map .map ++ v :: others) span =
          .error ⟨.mismatch .map v.kind, span⟩) ∧
      Builtin.merge.call eval site [.list (maps.map .map ++ v :: others)] span =
        .error ⟨.mismatch .map v.kind, span⟩) := by
  refine ⟨fun maps hdistinct => ?_, fun groups hne hgroups hdistinct => ?_,
    fun maps v others hv => ⟨fun hlist => ?_, call_merge_of_not_map eval site span rfl hv⟩⟩
  · exact ⟨Field.merged maps.flatten, Field.isUnion_merged hdistinct,
      fun hne => call_merge_of_maps eval site span (.inl ⟨rfl, hne⟩),
      call_merge_of_maps eval site span (.inr rfl)⟩
  · have hflatten : groups.flatten ≠ [] := by
      obtain ⟨g, hg⟩ := List.exists_mem_of_ne_nil _ hne
      exact List.flatten_ne_nil_iff.2 ⟨g, hg, hgroups g hg⟩
    let unions := groups.map fun g => Field.merged g.flatten
    have hunions : unions ≠ [] := List.map_eq_nil_iff.not.2 hne
    refine ⟨unions.map .map, ?_, ?_⟩
    · rw [List.map_map]
      exact List.forall₂_map_right_iff.2 (List.forall₂_same.2 fun g hg =>
        call_merge_of_maps eval site span (.inl ⟨rfl, hgroups g hg⟩))
    · rw [call_merge_of_maps eval site span (.inl ⟨rfl, hunions⟩),
        call_merge_of_maps eval site span (.inl ⟨rfl, hflatten⟩), Field.merged_groups hdistinct]
  · exact call_merge_of_not_map eval site span (mergeOperands_eq_self hlist) hv

/-- The second map has a key of the first and the third one of the second. -/
theorem merge_union_overridden :
    let maps : List (List Field) :=
      [[⟨"a", .int 1⟩, ⟨"b", .int 2⟩], [⟨"c", .int 3⟩, ⟨"a", .int 4⟩], [⟨"c", .bool true⟩]]
    let fields : List Field := [⟨"a", .int 4⟩, ⟨"b", .int 2⟩, ⟨"c", .bool true⟩]
    let merge arguments := Builtin.merge.call (Expr.eval 0 0) [] arguments ⟨0, 5⟩
    (∀ m ∈ maps, (m.map (·.key)).Nodup) ∧ Field.IsUnion maps fields ∧
      merge (maps.map .map) = .ok (.map fields) ∧
      (∃ unions, merge unions = .ok (.map fields) ∧
        List.Forall₂ (fun g u => merge (g.map .map) = .ok u) [maps.take 2, maps.drop 2] unions) ∧
      merge (maps.map .map ++ [.int 5, .bool true]) = .error ⟨.mismatch .map .number, ⟨0, 5⟩⟩ := by
  intro maps fields merge
  have hdistinct : ∀ m ∈ maps, (m.map (·.key)).Nodup := by decide
  have hgroups : ∀ g ∈ [maps.take 2, maps.drop 2], ∀ m ∈ g, (m.map (·.key)).Nodup := by decide
  obtain ⟨hunion, hgrouped, hfault⟩ := merge_union (Expr.eval 0 0) [] ⟨0, 5⟩
  obtain ⟨fs, hfs, hmerge, -⟩ := hunion maps hdistinct
  have hvalue : merge (maps.map .map) = .ok (.map fields) := rfl
  obtain rfl : fs = fields := by
    have hok := (hmerge (List.cons_ne_nil _ _)).symm.trans hvalue
    cases hok
    rfl
  obtain ⟨unions, heach, hall⟩ :=
    hgrouped [maps.take 2, maps.drop 2] (List.cons_ne_nil _ _) (by decide) hgroups
  exact ⟨hdistinct, hfs, hvalue, ⟨unions, hall.trans hvalue, heach⟩,
    (hfault maps (.int 5) [.bool true] nofun).1 nofun⟩

end Builtin

end ConfigExpr
