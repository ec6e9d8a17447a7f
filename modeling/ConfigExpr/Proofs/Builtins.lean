import ConfigExpr.Proofs.Distinct
import ConfigExpr.Proofs.Rules

/-!
# What built-in functions return

The built-in functions that call no closure, and the methods of strings, return what the rules say
of them and nothing else.
-/

namespace ConfigExpr

namespace Field

theorem nodup_eraseDups (keys : List String) : keys.eraseDups.Nodup := by
  match keys with
  | [] => simp
  | key :: keys =>
    rw [List.eraseDups_cons, List.nodup_cons, List.mem_eraseDups]
    refine ⟨by simp, ?_⟩
    have := List.length_filter_le (!· == key) keys
    exact nodup_eraseDups (keys.filter (!· == key))
termination_by keys.length

theorem eraseDups_append_singleton (keys : List String) (key : String) :
    (keys ++ [key]).eraseDups =
      if key ∈ keys.eraseDups then keys.eraseDups else keys.eraseDups ++ [key] := by
  rw [List.eraseDups_append]
  by_cases h : key ∈ keys
  · rw [if_pos (List.mem_eraseDups.2 h)]
    simp [List.removeAll, h]
  · rw [if_neg (mt List.mem_eraseDups.1 h)]
    simp [List.removeAll, h, List.eraseDups_cons]

theorem get?_isSome {fields : List Field} {key : String} :
    (get? fields key).isSome ↔ key ∈ fields.map (·.key) := by
  simp [get?, List.find?_isSome]

/-- The fields with the given keys that a look-up has. -/
def ofKeys (keys : List String) (value? : String → Option Value) : List Field :=
  keys.filterMap fun key => (value? key).map fun value => ⟨key, value⟩

theorem ofKeys_cons {key : String} {keys : List String} {value? : String → Option Value}
    {v : Value} (h : value? key = some v) :
    ofKeys (key :: keys) value? = ⟨key, v⟩ :: ofKeys keys value? := by
  simp [ofKeys, h]

theorem ofKeys_congr {keys : List String} {a b : String → Option Value}
    (h : ∀ key ∈ keys, a key = b key) : ofKeys keys a = ofKeys keys b := by
  induction keys with
  | nil => rfl
  | cons key keys ih =>
    have hkeys := ih fun k hk => h k (List.mem_cons_of_mem key hk)
    unfold ofKeys at hkeys ⊢
    rw [List.filterMap_cons, List.filterMap_cons, h key (by simp), hkeys]

theorem map_key_ofKeys {keys : List String} {value? : String → Option Value}
    (h : ∀ key ∈ keys, (value? key).isSome) : (ofKeys keys value?).map (·.key) = keys := by
  induction keys with
  | nil => rfl
  | cons key keys ih =>
    obtain ⟨v, hv⟩ := Option.isSome_iff_exists.1 (h key (by simp))
    rw [ofKeys_cons hv, List.map_cons, ih fun k hk => h k (List.mem_cons_of_mem key hk)]

theorem put_ofKeys {keys : List String} {value? : String → Option Value} {key : String}
    {v : Value} (hkeys : keys.Nodup) (h : ∀ key ∈ keys, (value? key).isSome) :
    put (ofKeys keys value?) key v =
      ofKeys (if key ∈ keys then keys else keys ++ [key])
        fun k => if k = key then some v else value? k := by
  induction keys with
  | nil => simp [ofKeys, put]
  | cons k keys ih =>
    obtain ⟨w, hw⟩ := Option.isSome_iff_exists.1 (h k (by simp))
    obtain ⟨hk, hkeys⟩ := List.nodup_cons.1 hkeys
    have ih := ih hkeys fun k hk => h k (List.mem_cons_of_mem _ hk)
    rw [ofKeys_cons hw, put]
    by_cases hkey : k = key
    · subst hkey
      rw [if_pos rfl, if_pos (by simp), ofKeys_cons (if_pos rfl)]
      congr 1
      exact ofKeys_congr fun k' hk' => (if_neg (ne_of_mem_of_not_mem hk' hk)).symm
    · rw [if_neg hkey, ih]
      by_cases hmem : key ∈ keys
      · rw [if_pos hmem, if_pos (by simp [hmem]), ofKeys_cons ((if_neg hkey).trans hw)]
      · rw [if_neg hmem, if_neg (by simp [hmem, Ne.symm hkey]), List.cons_append,
          ofKeys_cons ((if_neg hkey).trans hw)]

theorem merged_eq_ofKeys (fields : List Field) :
    merged fields = ofKeys (fields.map (·.key)).eraseDups (get? fields.reverse) :=
  rfl

theorem get?_reverse_isSome {fields : List Field} :
    ∀ key ∈ (fields.map (·.key)).eraseDups, (get? fields.reverse key).isSome := by
  intro key hkey
  rw [get?_isSome, List.map_reverse, List.mem_reverse]
  exact List.mem_eraseDups.1 hkey

theorem nodup_keys_merged (fields : List Field) : ((merged fields).map (·.key)).Nodup := by
  rw [merged_eq_ofKeys, map_key_ofKeys get?_reverse_isSome]
  exact nodup_eraseDups _

/-- Putting a field into merged fields merges it too. -/
theorem put_merged (fields : List Field) (f : Field) :
    put (merged fields) f.key f.value = merged (fields ++ [f]) := by
  rw [merged_eq_ofKeys, put_ofKeys (nodup_eraseDups _) get?_reverse_isSome, merged_eq_ofKeys]
  rw [List.map_append, List.map_singleton, eraseDups_append_singleton]
  refine ofKeys_congr fun key _ => ?_
  rw [List.reverse_append, List.reverse_singleton, List.singleton_append]
  by_cases h : f.key = key <;> simp [get?, h, Ne.symm]

theorem putAll_merged (fields others : List Field) :
    putAll (merged fields) others = merged (fields ++ others) := by
  induction others generalizing fields with
  | nil => simp [putAll]
  | cons f others ih =>
    have hput := put_merged fields f
    simp only [putAll, List.foldl_cons, hput] at ih ⊢
    rw [ih, List.append_assoc, List.singleton_append]

end Field

theorem joinLists_eq_ok_iff {arguments items : List Value} :
    joinLists arguments = .ok items ↔
      ∃ lists : List (List Value), arguments = lists.map .list ∧ items = lists.flatten := by
  induction arguments generalizing items with
  | nil =>
    constructor
    · rintro ⟨⟩
      exact ⟨[], rfl, rfl⟩
    · rintro ⟨lists, h, rfl⟩
      obtain rfl := List.map_eq_nil_iff.1 h.symm
      rfl
  | cons v others ih =>
    constructor
    · intro h
      unfold joinLists at h
      split at h
      next hv => cases hv
      next vs others' hv =>
        cases hv
        split at h
        next joined hj =>
          cases h
          obtain ⟨lists, rfl, rfl⟩ := ih.1 hj
          exact ⟨vs :: lists, rfl, rfl⟩
        next => cases h
      next => cases h
    · rintro ⟨lists, h, rfl⟩
      obtain ⟨vs, lists, rfl, rfl, rfl⟩ := List.map_eq_cons_iff.1 h.symm
      simp [joinLists, ih.2 ⟨lists, rfl, rfl⟩]

theorem putMaps_eq_ok_iff {fields : List Field} {operands : List Value} (all : List Field) :
    putMaps (Field.merged all) operands = .ok fields ↔
      ∃ maps : List (List Field), operands = maps.map .map ∧
        fields = Field.merged (all ++ maps.flatten) := by
  induction operands generalizing all with
  | nil =>
    constructor
    · rintro ⟨⟩
      exact ⟨[], rfl, by simp⟩
    · rintro ⟨maps, h, rfl⟩
      obtain rfl := List.map_eq_nil_iff.1 h.symm
      simp [putMaps]
  | cons v others ih =>
    constructor
    · intro h
      unfold putMaps at h
      split at h
      next hv => cases hv
      next fs others' hv =>
        cases hv
        rw [Field.putAll_merged] at h
        obtain ⟨maps, rfl, rfl⟩ := (ih (all ++ fs)).1 h
        exact ⟨fs :: maps, rfl, by simp⟩
      next => cases h
    · rintro ⟨maps, h, rfl⟩
      obtain ⟨fs, maps, rfl, rfl, rfl⟩ := List.map_eq_cons_iff.1 h.symm
      rw [putMaps, Field.putAll_merged]
      exact (ih (all ++ fs)).2 ⟨maps, rfl, by simp⟩

theorem putMaps_nil_eq_ok_iff {fields : List Field} {operands : List Value} :
    putMaps [] operands = .ok fields ↔
      ∃ maps : List (List Field), operands = maps.map .map ∧
        fields = Field.merged maps.flatten :=
  putMaps_eq_ok_iff []

theorem concatValues_eq_ok_iff {arguments : List Value} {v : Value} :
    concatValues arguments = .ok v ↔
      ∃ lists : List (List Value), arguments = lists.map .list ∧ lists ≠ [] ∧
        v = .list lists.flatten := by
  unfold concatValues
  split
  next h =>
    obtain rfl := List.isEmpty_iff.1 h
    refine iff_of_false nofun ?_
    rintro ⟨lists, h, hne, -⟩
    exact hne (List.map_eq_nil_iff.1 h.symm)
  next h =>
    constructor
    · intro hv
      split at hv
      next items hj =>
        cases hv
        obtain ⟨lists, rfl, rfl⟩ := joinLists_eq_ok_iff.1 hj
        exact ⟨lists, rfl, by simpa using h, rfl⟩
      next => cases hv
    · rintro ⟨lists, rfl, -, rfl⟩
      rw [joinLists_eq_ok_iff.2 ⟨lists, rfl, rfl⟩]

theorem mergeValues_eq_ok_iff {arguments : List Value} {v : Value} :
    mergeValues arguments = .ok v ↔
      ∃ maps : List (List Field),
        (arguments = maps.map .map ∧ maps ≠ [] ∨ arguments = [.list (maps.map .map)]) ∧
        v = .map (Field.merged maps.flatten) := by
  have hoperands : ∀ maps : List (List Field), mergeOperands arguments = maps.map .map ∧
      arguments ≠ [] ↔
      arguments = maps.map .map ∧ maps ≠ [] ∨ arguments = [.list (maps.map .map)] := by
    intro maps
    unfold mergeOperands
    split
    · next items =>
      have : [Value.list items] ≠ maps.map .map := by
        cases maps <;> simp
      simp [this]
    · next h =>
      constructor
      · rintro ⟨rfl, hne⟩
        exact .inl ⟨rfl, by simpa using hne⟩
      · rintro (⟨rfl, hne⟩ | rfl)
        · exact ⟨rfl, by simpa using hne⟩
        · exact absurd rfl (h _)
  have hofFields : ∀ maps : List (List Field),
      Value.ofFields (Field.merged maps.flatten) = .ok (.map (Field.merged maps.flatten)) := by
    intro maps
    unfold Value.ofFields
    rw [Field.repeated?_eq_none_iff.2 ⟨Field.nodup_keys_merged _, by simp⟩]
  unfold mergeValues
  split
  next h =>
    obtain rfl := List.isEmpty_iff.1 h
    refine iff_of_false nofun ?_
    rintro ⟨maps, h, -⟩
    exact ((hoperands maps).2 h).2 rfl
  next h =>
    constructor
    · intro hv
      split at hv
      next => cases hv
      next fields hp =>
        obtain ⟨maps, hmaps, rfl⟩ := putMaps_nil_eq_ok_iff.1 hp
        rw [hofFields] at hv
        cases hv
        exact ⟨maps, (hoperands maps).1 ⟨hmaps, by simpa using h⟩, rfl⟩
    · rintro ⟨maps, h, rfl⟩
      rw [putMaps_nil_eq_ok_iff.2 ⟨maps, ((hoperands maps).2 h).1, rfl⟩]
      simp only [hofFields]

theorem Method.alone_eq_ok_iff {result v : Value} {arguments : List Value} :
    alone result arguments = .ok v ↔ arguments = [] ∧ v = result := by
  cases arguments <;> simp [alone, eq_comm]

theorem Method.about_eq_ok_iff {answer : List Char → Bool} {v : Value} {arguments : List Value} :
    about answer arguments = .ok v ↔
      ∃ text, arguments = [.string text] ∧ v = .bool (answer text.toList) := by
  constructor
  · intro h
    unfold about at h
    split at h
    next text =>
      cases h
      exact ⟨text, rfl, rfl⟩
    · cases h
    · cases h
  · rintro ⟨text, rfl, rfl⟩
    rfl

theorem occursIn_eq_decide (part text : List Char) :
    Text.occursIn part text = decide (part <:+: text) :=
  Bool.eq_iff_iff.2 (Text.occursIn_iff.trans decide_eq_true_iff.symm)

theorem isPrefixOf_eq_decide (part text : List Char) :
    part.isPrefixOf text = decide (part <+: text) :=
  Bool.eq_iff_iff.2 (List.isPrefixOf_iff_prefix.trans decide_eq_true_iff.symm)

theorem isSuffixOf_eq_decide (part text : List Char) :
    part.isSuffixOf text = decide (part <:+ text) :=
  Bool.eq_iff_iff.2 (List.isSuffixOf_iff_suffix.trans decide_eq_true_iff.symm)

theorem stringMethod_iff {text name : String} {arguments : List Value} {v : Value} :
    StringMethod text name arguments v ↔
      ∃ m, Method.ofName? name = some m ∧ m.call text arguments = .ok v := by
  constructor
  · intro h
    cases h with
    | unindent => exact ⟨.unindent, rfl, rfl⟩
    | trim => exact ⟨.trim, rfl, rfl⟩
    | lines => exact ⟨.lines, rfl, rfl⟩
    | contains part =>
      rw [← occursIn_eq_decide]
      exact ⟨.contains, rfl, rfl⟩
    | startsWith part =>
      rw [← isPrefixOf_eq_decide]
      exact ⟨.startsWith, rfl, rfl⟩
    | endsWith part =>
      rw [← isSuffixOf_eq_decide]
      exact ⟨.endsWith, rfl, rfl⟩
  · rintro ⟨m, hm, hcall⟩
    unfold Method.ofName? at hm
    split at hm <;> cases hm <;> dsimp only [Method.call] at hcall
    · obtain ⟨rfl, rfl⟩ := Method.alone_eq_ok_iff.1 hcall
      exact .unindent
    · obtain ⟨rfl, rfl⟩ := Method.alone_eq_ok_iff.1 hcall
      exact .trim
    · obtain ⟨rfl, rfl⟩ := Method.alone_eq_ok_iff.1 hcall
      exact .lines
    · obtain ⟨part, rfl, rfl⟩ := Method.about_eq_ok_iff.1 hcall
      rw [occursIn_eq_decide]
      exact .contains part
    · obtain ⟨part, rfl, rfl⟩ := Method.about_eq_ok_iff.1 hcall
      rw [isPrefixOf_eq_decide]
      exact .startsWith part
    · obtain ⟨part, rfl, rfl⟩ := Method.about_eq_ok_iff.1 hcall
      rw [isSuffixOf_eq_decide]
      exact .endsWith part

end ConfigExpr
