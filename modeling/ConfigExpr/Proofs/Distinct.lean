import ConfigExpr.Eval.Evaluator

/-!
# Names and keys without repetition

The parameters of a lambda, the entries of a map literal and the fields of a map are searched for
the first name or key that appears a second time. The search finds none if and only if all are
distinct. What a map literal finds among its fields is the text of what is found among the keys of
its entries, and the second entry with that text is the one found (`evalMap_eq`).
-/

namespace ConfigExpr

theorem Name.mem_of_repeated? {seen : List String} {names : List Name} {n : Name}
    (h : Name.repeated? seen names = some n) : n ∈ names := by
  induction names generalizing seen with
  | nil => cases h
  | cons m names ih =>
    rw [Name.repeated?] at h
    split at h
    · cases h
      exact List.mem_cons_self
    · exact List.mem_cons_of_mem m (ih h)

theorem Name.repeated?_eq_none_iff {seen : List String} {names : List Name} :
    Name.repeated? seen names = none ↔
      (names.map (·.text)).Nodup ∧ ∀ n ∈ names, n.text ∉ seen := by
  induction names generalizing seen with
  | nil => simp [Name.repeated?]
  | cons n names ih =>
    rw [Name.repeated?]
    split
    · next h => simp [h]
    · next h =>
      rw [ih]
      simp only [List.mem_cons, not_or, List.map_cons, List.nodup_cons, List.mem_map, not_exists,
        not_and]
      grind

theorem Field.repeated?_eq_none_iff {seen : List String} {fields : List Field} :
    Field.repeated? seen fields = none ↔
      (fields.map (·.key)).Nodup ∧ ∀ f ∈ fields, f.key ∉ seen := by
  induction fields generalizing seen with
  | nil => simp [Field.repeated?]
  | cons f fs ih =>
    rw [Field.repeated?]
    split
    · next h => simp [h]
    · next h =>
      rw [ih]
      simp only [List.mem_cons, not_or, List.map_cons, List.nodup_cons, List.mem_map, not_exists,
        not_and]
      grind

/-- The name found is one of the names seen or has one before it, and before it there is no such
name. -/
theorem Name.exists_of_repeated? {seen : List String} {names : List Name} {n : Name}
    (h : Name.repeated? seen names = some n) :
    ∃ before after, names = before ++ n :: after ∧ Name.repeated? seen before = none ∧
      (n.text ∈ seen ∨ n.text ∈ before.map (·.text)) := by
  induction names generalizing seen with
  | nil => cases h
  | cons m names ih =>
    rw [Name.repeated?] at h
    split at h
    next hm =>
      cases h
      exact ⟨[], names, rfl, rfl, .inl hm⟩
    next hm =>
      obtain ⟨before, after, rfl, hbefore, hn⟩ := ih h
      refine ⟨m :: before, after, rfl, ?_, ?_⟩
      · rw [Name.repeated?, if_neg hm, hbefore]
      · rcases hn with hn | hn
        · rcases List.mem_cons.1 hn with heq | hn
          · exact .inr (heq ▸ List.mem_cons_self)
          · exact .inl hn
        · exact .inr (List.mem_cons_of_mem _ hn)

/-- Fields with the texts of some names as keys are searched as the names are. -/
theorem Field.repeated?_eq {names : List Name} {fields : List Field}
    (h : fields.map (·.key) = names.map (·.text)) (seen : List String) :
    Field.repeated? seen fields = (Name.repeated? seen names).map (·.text) := by
  induction fields generalizing names seen with
  | nil =>
    obtain rfl := List.map_eq_nil_iff.1 h.symm
    rfl
  | cons f fs ih =>
    obtain ⟨n, names, rfl, hkey, hkeys⟩ := List.map_eq_cons_iff.1 h.symm
    rw [Field.repeated?, Name.repeated?, hkey]
    split
    · exact congrArg some hkey.symm
    · exact ih hkeys.symm _

/-! ## Map literals -/

/-- Where the first key that appears twice is found, it appears the second time. -/
theorem Entry.second?_of_repeated? {entries : List Entry} {n : Name}
    (h : Name.repeated? [] (entries.map (·.key)) = some n) :
    Entry.second? n.text entries = some n.span := by
  obtain ⟨before, after, hsplit, hbefore, hmem⟩ := Name.exists_of_repeated? h
  have hnodup : (before.map (·.text)).Nodup := (Name.repeated?_eq_none_iff.1 hbefore).1
  have hone : (before.filter (·.text == n.text)).length = 1 := by
    have hcount := hnodup.count (a := n.text)
    rw [if_pos (hmem.resolve_left List.not_mem_nil), List.count_eq_countP, List.countP_map,
      List.countP_eq_length_filter] at hcount
    exact hcount
  rw [Entry.second?, hsplit, List.filter_append, List.getElem?_append_right (Nat.le_of_eq hone),
    hone, List.filter_cons, if_pos (beq_self_eq_true n.text)]
  rfl

section

variable {eval : Evaluator} {scope : Scope}

theorem keys_of_evalFields {k : Nat} {entries : List Entry} {fields : List Field}
    (h : evalFields eval scope k entries = .ok fields) :
    fields.map (·.key) = (entries.map (·.key)).map (·.text) := by
  induction entries generalizing k fields with
  | nil =>
    cases h
    rfl
  | cons e es ih =>
    rw [evalFields] at h
    cases hvalue : eval (scope.part k) e.value with
    | error _ =>
      rw [hvalue] at h
      cases h
    | ok value =>
      cases hothers : evalFields eval scope (k + 1) es with
      | error _ =>
        rw [hvalue, hothers] at h
        cases h
      | ok others =>
        rw [hvalue, hothers] at h
        cases h
        rw [List.map_cons, ih hothers, List.map_cons, List.map_cons]

/-- A map literal has its fields as its value, or the error of the first key that an entry before
has too, at its own place. -/
theorem evalMap_eq (entries : List Entry) (span : Span) :
    evalMap eval scope entries span = evalFields eval scope 0 entries >>= fun fields =>
      match Name.repeated? [] (entries.map (·.key)) with
      | some key => .error ⟨.duplicateKey key.text, key.span⟩
      | none => .ok (.map fields) := by
  rw [evalMap]
  cases hfields : evalFields eval scope 0 entries with
  | error e => rfl
  | ok fields =>
    have hkeys := Field.repeated?_eq (keys_of_evalFields hfields) []
    dsimp only [bind, Except.bind]
    rw [Value.ofFields, hkeys]
    cases hrepeated : Name.repeated? [] (entries.map (·.key)) with
    | none => rfl
    | some n =>
      dsimp only [Option.map]
      rw [Entry.second?_of_repeated? hrepeated]
      rfl

end

end ConfigExpr
