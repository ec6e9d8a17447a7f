import ConfigExpr.Program.Run
import ConfigExpr.Proofs.Common
import ConfigExpr.Proofs.Distinct
import Mathlib.Data.Fin.VecNotation
import Mathlib.Data.Set.Finite.Lemmas
import Mathlib.Order.Bounds.Basic
import Mathlib.Tactic.FinCases

/-!
# Map literals

A map literal evaluates the values of its entries in order, and their keys are compared when all of
them have one. So an entry that fails goes before keys that repeat, and of these the one reported is
the earliest that an entry before has too, at its own place (`evalMap_reports`).
-/

namespace ConfigExpr

section

variable {eval : Evaluator} {scope : Scope} {entries : List Entry}

/-- The fields are the keys and values of the entries, in their order. -/
theorem evalFields_of_ok {k : Nat} {values : Fin entries.length → Value}
    (h : ∀ i : Fin entries.length, eval (scope.part (k + i)) entries[i].value = .ok (values i)) :
    evalFields eval scope k entries =
      .ok (List.ofFn fun i : Fin entries.length => ⟨entries[i].key.text, values i⟩) := by
  induction entries generalizing k with
  | nil => rfl
  | cons e es ih =>
    have hfirst : eval (scope.part k) e.value = .ok (values 0) := h 0
    have hothers := @ih (k + 1) (fun i => values i.succ) fun i => by
      rw [Nat.add_right_comm]
      exact h i.succ
    rw [evalFields, hfirst, hothers, List.ofFn_succ]
    rfl

/-- The entries are evaluated up to the first that fails. -/
theorem evalFields_of_error {k : Nat} {i : Fin entries.length} {e : EvalError}
    (hbefore : ∀ j < i, ∃ v, eval (scope.part (k + j)) entries[j].value = .ok v)
    (h : eval (scope.part (k + i)) entries[i].value = .error e) :
    evalFields eval scope k entries = .error e := by
  induction entries generalizing k with
  | nil => exact i.elim0
  | cons x es ih =>
    rw [evalFields]
    cases i using Fin.cases with
    | zero =>
      have hfirst : eval (scope.part k) x.value = .error e := h
      rw [hfirst]
      rfl
    | succ i =>
      obtain ⟨v, hv⟩ := hbefore 0 i.succ_pos
      have hfirst : eval (scope.part k) x.value = .ok v := hv
      have hothers := ih (k := k + 1) (i := i)
        (fun j hj => by
          rw [Nat.add_right_comm]
          exact hbefore j.succ (Fin.succ_lt_succ_iff.2 hj))
        (by
          rw [Nat.add_right_comm]
          exact h)
      rw [hfirst, hothers]
      rfl

/-- The key found among the entries is that of the earliest one whose key an entry before has. -/
theorem Entry.isLeast_of_repeated? {n : Name}
    (h : Name.repeated? [] (entries.map (·.key)) = some n) :
    ∃ i : Fin entries.length,
      IsLeast {i | ∃ j < i, entries[j].key.text = entries[i].key.text} i ∧ entries[i].key = n := by
  obtain ⟨names, others, hsplit, hnames, hmem⟩ := Name.exists_of_repeated? h
  obtain ⟨before, rest, rfl, rfl, hrest⟩ := List.map_eq_append_iff.1 hsplit
  obtain ⟨x, after, rfl, rfl, rfl⟩ := List.map_eq_cons_iff.1 hrest
  have hnodup := (Name.repeated?_eq_none_iff.1 hnames).1
  have hlength : before.length < (before ++ x :: after).length := by simp
  refine ⟨⟨before.length, hlength⟩, ⟨?_, ?_⟩, by simp⟩
  · obtain ⟨m, hm, htext⟩ := List.mem_map.1 (hmem.resolve_left List.not_mem_nil)
    obtain ⟨y, hy, rfl⟩ := List.mem_map.1 hm
    obtain ⟨j, hj, rfl⟩ := List.mem_iff_getElem.1 hy
    refine ⟨⟨j, hj.trans hlength⟩, hj, ?_⟩
    simpa [List.getElem_append_left hj] using htext
  · rintro i ⟨j, hji, hkey⟩
    by_contra hle
    have hi : i.val < before.length := Nat.lt_of_not_le hle
    have hj : j.val < before.length := Nat.lt_trans hji hi
    have hne := List.pairwise_iff_getElem.1 hnodup j i (by simpa using hj) (by simpa using hi) hji
    simp only [Fin.getElem_fin, List.getElem_append_left hi, List.getElem_append_left hj] at hkey
    simp only [List.getElem_map] at hne
    exact hne hkey

variable (eval scope) in
/-- The literal fails as the first of its entries that fail. -/
theorem evalMap_of_fails (span : Span)
    (h : ∃ (i : Fin entries.length) (e : EvalError),
      eval (scope.part i) entries[i].value = .error e) :
    ∃ i e, IsLeast {i : Fin entries.length | ∃ e, eval (scope.part i) entries[i].value = .error e} i ∧
      eval (scope.part i) entries[i].value = .error e ∧
      evalMap eval scope entries span = .error e := by
  obtain ⟨i, hi⟩ : ∃ i, IsLeast {i : Fin entries.length | ∃ e, eval (scope.part i) entries[i].value =
      .error e} i := Set.exists_min_image _ id (Set.toFinite _) h
  obtain ⟨e, he⟩ := hi.1
  have hbefore : ∀ j < i, ∃ v, eval (scope.part j) entries[j].value = .ok v := by
    intro j hj
    cases hvalue : eval (scope.part j) entries[j].value with
    | ok v => exact ⟨v, rfl⟩
    | error f => exact absurd (hi.2 ⟨f, hvalue⟩) (Fin.not_le.2 hj)
  have hfields : evalFields eval scope 0 entries = .error e :=
    evalFields_of_error (i := i) (by simpa only [Nat.zero_add] using hbefore)
      (by simpa only [Nat.zero_add] using he)
  refine ⟨i, e, hi, he, ?_⟩
  rw [evalMap_eq, hfields]
  rfl

/-- With a value for each entry, the keys alone decide. -/
theorem evalMap_of_values (span : Span) {values : Fin entries.length → Value}
    (h : ∀ i : Fin entries.length, eval (scope.part i) entries[i].value = .ok (values i)) :
    evalMap eval scope entries span =
      match Name.repeated? [] (entries.map (·.key)) with
      | some key => .error ⟨.duplicateKey key.text, key.span⟩
      | none => .ok (.map (List.ofFn fun i : Fin entries.length =>
          ⟨entries[i].key.text, values i⟩)) := by
  have hfields : evalFields eval scope 0 entries = .ok (List.ofFn fun i : Fin entries.length =>
      ⟨entries[i].key.text, values i⟩) :=
    evalFields_of_ok (by simpa only [Nat.zero_add] using h)
  rw [evalMap_eq, hfields]
  rfl

end

/-- Where the limit leaves an evaluation for a map literal, it fails as the first of its entries does
whose value fails, whatever the keys. Where all have values, it is the map of the keys and values in
their order if no key appears twice. Otherwise the error shows the earliest key that an entry before
has too, at its own place. The place of the literal is never shown. -/
theorem evalMap_reports (limit depth : Nat) (scope : Scope) (entries : List Entry) (span : Span) :
    let value (i : Fin entries.length) := Expr.eval limit depth (scope.part i) entries[i].value
    let key (i : Fin entries.length) := entries[i].key
    let result := evalMap (Expr.eval limit depth) scope entries span
    Expr.eval limit (depth + 1) scope (.map entries span) = result ∧
      ((∃ i e, value i = .error e) → ∃ i e, IsLeast {i | ∃ e, value i = .error e} i ∧
        value i = .error e ∧ result = .error e) ∧
      (∀ values : Fin entries.length → Value, (∀ i, value i = .ok (values i)) →
        ((entries.map (·.key.text)).Nodup →
          result = .ok (.map (List.ofFn fun i => ⟨(key i).text, values i⟩))) ∧
        (¬ (entries.map (·.key.text)).Nodup →
          ∃ i, IsLeast {i | ∃ j < i, (key j).text = (key i).text} i ∧
            result = .error ⟨.duplicateKey (key i).text, (key i).span⟩)) ∧
      ∀ other, evalMap (Expr.eval limit depth) scope entries other = result := by
  intro value key result
  refine ⟨rfl, evalMap_of_fails _ scope span, fun values hvalues => ?_, fun other => ?_⟩
  · have hresult : result = _ := evalMap_of_values span hvalues
    have hdistinct : (entries.map (·.key.text)).Nodup ↔
        Name.repeated? [] (entries.map (·.key)) = none := by
      simp [Name.repeated?_eq_none_iff, Function.comp_def]
    rw [hdistinct]
    cases hrepeated : Name.repeated? [] (entries.map (·.key)) with
    | none =>
      rw [hrepeated] at hresult
      exact ⟨fun _ => hresult, fun h => absurd rfl h⟩
    | some n =>
      rw [hrepeated] at hresult
      obtain ⟨i, hi, rfl⟩ := Entry.isLeast_of_repeated? hrepeated
      exact ⟨nofun, fun _ => ⟨i, hi, hresult⟩⟩
  · rw [evalMap_eq, ← evalMap_eq entries span]

/-- With a limit of zero the literal itself nests too deeply. This one has no entry that fails and no
key twice. -/
theorem evalMap_reports_limit_zero :
    let entries : List Entry := []
    let literal : Program := ⟨.map entries ⟨0, 2⟩, []⟩
    Program.parse "\x7b\x7d" = .ok literal ∧ (entries.map (·.key.text)).Nodup ∧
      literal.evaluateIn ⟨0, 0⟩ [] 1 = .ok (.map []) ∧
      literal.evaluateIn ⟨0, 0⟩ [] 0 = .error ⟨.tooDeep 0, ⟨0, 2⟩⟩ :=
  ⟨by cbv, .nil, rfl, rfl⟩

/-- The keys a and b are interleaved, and the second b stands before the second a. With an entry more
that fails the keys do not matter, and with the first two entries only they are distinct. -/
theorem evalMap_reports_interleaved :
    let entry (key : String) (place : Nat) (value : Expr) : Entry :=
      ⟨⟨key, ⟨place, place + 1⟩⟩, value⟩
    let distinct := [entry "a" 1 (.int 1 ⟨4, 5⟩), entry "b" 7 (.int 2 ⟨10, 11⟩)]
    let repeated := distinct ++ [entry "b" 13 (.int 3 ⟨16, 17⟩), entry "a" 19 (.int 4 ⟨22, 23⟩)]
    let failing := repeated ++ [entry "b" 25 (.name ⟨"x", ⟨28, 29⟩⟩)]
    let outcome (entries : List Entry) := Expr.eval 2 2 ⟨0, [0, 0], []⟩ (.map entries ⟨0, 30⟩)
    Program.parse "\x7ba: 1, b: 2, b: 3, a: 4, b: x\x7d" = .ok ⟨.map failing ⟨0, 30⟩, []⟩ ∧
      outcome distinct = .ok (.map [⟨"a", .int 1⟩, ⟨"b", .int 2⟩]) ∧
      outcome repeated = .error ⟨.duplicateKey "b", ⟨13, 14⟩⟩ ∧
      outcome failing = .error ⟨.unbound "x", ⟨28, 29⟩⟩ := by
  intro entry distinct repeated failing outcome
  refine ⟨by cbv, ?_, ?_, ?_⟩
  · obtain ⟨hresult, -, hvalues, -⟩ := evalMap_reports 2 1 ⟨0, [0, 0], []⟩ distinct ⟨0, 30⟩
    have hmap := (hvalues ![.int 1, .int 2] fun i => by fin_cases i <;> rfl).1 (by decide)
    exact hresult.trans hmap
  · obtain ⟨hresult, -, hvalues, -⟩ := evalMap_reports 2 1 ⟨0, [0, 0], []⟩ repeated ⟨0, 30⟩
    obtain ⟨i, hi, herror⟩ := (hvalues ![.int 1, .int 2, .int 3, .int 4] fun i => by
      fin_cases i <;> rfl).2 (by decide)
    have hb : IsLeast {i : Fin 4 | ∃ j < i, repeated[j].key.text = repeated[i].key.text} 2 :=
      ⟨⟨1, by decide, rfl⟩, by
        show ∀ i : Fin 4, (∃ j < i, repeated[j].key.text = repeated[i].key.text) → 2 ≤ i
        decide⟩
    obtain rfl := hi.unique hb
    exact hresult.trans herror
  · obtain ⟨hresult, hfails, -, -⟩ := evalMap_reports 2 1 ⟨0, [0, 0], []⟩ failing ⟨0, 30⟩
    let value (i : Fin 5) := Expr.eval 2 1 (Scope.part ⟨0, [0, 0], []⟩ i) failing[i].value
    have hbefore : ∀ i : Fin 4, ∃ v, value i.castSucc = .ok v := by
      intro i
      fin_cases i <;> exact ⟨_, rfl⟩
    have hlast : IsLeast {i : Fin 5 | ∃ e, value i = .error e} 4 := by
      refine ⟨⟨_, rfl⟩, ?_⟩
      rintro i ⟨e, he⟩
      cases i using Fin.lastCases with
      | last => exact le_rfl
      | cast i =>
        obtain ⟨v, hv⟩ := hbefore i
        cases he.symm.trans hv
    obtain ⟨i, e, hi, he, herror⟩ := hfails ⟨(4 : Fin 5), _, rfl⟩
    obtain rfl := hi.unique hlast
    cases he
    exact hresult.trans herror

end ConfigExpr
