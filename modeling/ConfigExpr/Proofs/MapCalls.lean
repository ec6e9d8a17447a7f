import ConfigExpr.Proofs.Evaluates
import ConfigExpr.Proofs.Renewed

/-!
# Calls of functions in maps

A function in a map is called as a method, or by a call of the field that holds it, which is read by
its name or by its key. The method call looks the receiver up one evaluation less deeply. But for
that depth the three ways agree (`Expr.calls_of_field`): a derivation for one is turned into a
derivation for the other, with the receiver evaluated at another site.
-/

namespace ConfigExpr

/-- A field of a map is read by its name or by its key. -/
inductive FieldAccess (receiver : Expr) (key : String) : Expr → Prop where
  | member {n : Name} {s : Span} : n.text = key → FieldAccess receiver key (.member receiver n s)
  | index {s s' : Span} :
    FieldAccess receiver key (.index receiver (.template [.text key] s) s')

section

variable {receiver access : Expr} {key : String} {n : Nat} {scope : Scope} {v : Value}

theorem evaluates_text_iff {s : Span} :
    Evaluates n scope (.template [.text key] s) v ↔ n = 1 ∧ v = .string key := by
  constructor
  · intro h
    cases h with
    | template hsegments =>
      cases hsegments with
      | text hrest =>
        cases hrest
        exact ⟨rfl, by rw [String.append_empty]⟩
  · rintro ⟨rfl, rfl⟩
    have hsegments : EvaluatesSegments 0 scope 0 [.text key] (key ++ "") := .text .nil
    rw [String.append_empty] at hsegments
    exact .template hsegments

/-- The key has a value wherever the receiver has one, since a string takes one evaluation. -/
theorem FieldAccess.evaluates_iff (h : FieldAccess receiver key access) :
    Evaluates n scope access v ↔ ∃ m fields, n = m + 1 ∧
      Evaluates m (scope.part 0) receiver (.map fields) ∧ Field.get? fields key = some v := by
  cases h with
  | member hname =>
    subst hname
    constructor
    · intro h
      cases h with
      | member hreceiver hget => exact ⟨_, _, rfl, hreceiver, hget⟩
    · rintro ⟨m, fields, rfl, hreceiver, hget⟩
      exact .member hreceiver hget
  | index =>
    constructor
    · intro h
      cases h with
      | indexMap hreceiver hstring hget =>
        obtain ⟨rfl, ⟨⟩⟩ := evaluates_text_iff.1 hstring
        have hpos := hreceiver.pos
        exact ⟨_, _, by omega, hreceiver, hget⟩
      | indexList _ hstring => cases (evaluates_text_iff.1 hstring).2
    · rintro ⟨m, fields, rfl, hreceiver, hget⟩
      have hpos := hreceiver.pos
      rw [← Nat.max_eq_left hpos]
      exact .indexMap hreceiver (evaluates_text_iff.2 ⟨rfl, rfl⟩) hget

/-- The receiver stands one part deeper in the callee than in a method call. -/
theorem FieldAccess.evaluates_call_iff (h : FieldAccess receiver key access)
    {arguments : List Expr} {s : Span} :
    Evaluates n scope (.apply access arguments s) v ↔ ∃ a b k fields c values,
      n = max (a + 1) (max b k) + 1 ∧
      Evaluates a ((scope.part 0).part 0) receiver (.map fields) ∧
      Field.get? fields key = some (.closure c) ∧ EvaluatesAll b scope 1 arguments values ∧
      Runs k c ((arguments.length + 1) :: scope.site) values v := by
  constructor
  · intro hcall
    cases hcall with
    | apply hcallee harguments hruns =>
      obtain ⟨a, fields, rfl, hreceiver, hget⟩ := h.evaluates_iff.1 hcallee
      exact ⟨a, _, _, fields, _, _, rfl, hreceiver, hget, harguments, hruns⟩
    | concat | merge | mergeList | foldList | foldMap => cases h
  · rintro ⟨a, b, k, fields, c, values, rfl, hreceiver, hget, harguments, hruns⟩
    exact .apply (h.evaluates_iff.2 ⟨a, fields, rfl, hreceiver, hget⟩) harguments hruns

end

/-! ## Derivations at another site -/

section

variable {R : Site → Site → Prop} {n : Nat} {v : Value}

variable (R) in
/-- Evaluations at related sites. -/
def Correspondence.elsewhere : Correspondence :=
  renewing (R := R) (F := Site.Under R) fun h => h.cons _

theorem Evaluates.exists_renewed {s : Scope} {e : Expr} (h : Evaluates n s e v) (s' : Scope)
    (hsites : R s.site s'.site) (hprogram : s.program = s'.program) (henv : s.env = s'.env) :
    ∃ m ≤ n, ∃ w, Evaluates m s' e w ∧ v.Related (Closure.Renewed (Site.Under R)) w := by
  have hvalue : Expr.eval 0 n s e = .ok v :=
    (Expr.eval_agrees 0 n).2 ⟨n, Nat.le_refl n, h⟩
  have houtcomes : (Correspondence.elsewhere R).Outcomes (Correspondence.elsewhere R).Values
      (Expr.eval 0 n s e) (Expr.eval 0 n s' e) :=
    Correspondence.renewing_eval _ (Nat.le_refl n) hprogram (.self hsites)
      (henv ▸ Env.renewed_self s.env) e
  rw [hvalue] at houtcomes
  obtain ⟨w, hw, hvw⟩ := houtcomes.exists_of_ok
  obtain ⟨m, hm, hderives⟩ := (Expr.eval_agrees 0 n).1 hw
  exact ⟨m, hm, w, hderives, hvw⟩

theorem Runs.exists_renewed {c d : Closure} {site site' : Site} {values : List Value}
    (h : Runs n c site values v) (hcd : c.Renewed (Site.Under R) d) (hsites : R site site') :
    ∃ m ≤ n, ∃ w, Runs m d site' values w ∧ v.Related (Closure.Renewed (Site.Under R)) w := by
  have hvalue : c.apply (Expr.eval 0 n) site values .nowhere = .ok v :=
    (apply_eq_ok_iff (Expr.eval_agrees 0 n)).2 ⟨n, Nat.le_refl n, h⟩
  have hkeeps : (Correspondence.elsewhere R).Keeps (Expr.eval 0 n) (Expr.eval 0 n) :=
    Correspondence.keeps_renewing _ (Nat.le_refl n)
  have hvalues : List.Forall₂ (Correspondence.elsewhere R).Values values values :=
    List.forall₂_same.2 fun v _ => Value.renewed_self v
  have hspan : (Correspondence.elsewhere R).Allows .nowhere := fun _ => trivial
  have houtcomes := Correspondence.keeps_apply hkeeps hcd (.self hsites) hvalues hspan
  rw [hvalue] at houtcomes
  obtain ⟨w, hw, hvw⟩ := houtcomes.exists_of_ok
  obtain ⟨m, hm, hruns⟩ := (apply_eq_ok_iff (Expr.eval_agrees 0 n)).1 hw
  exact ⟨m, hm, w, hruns, hvw⟩

end

/-! ## The three ways to call -/

namespace Site

/-- Where a method call and the call of a field evaluate the same part: the receiver, an argument or
the body of the function. -/
inductive CallParts (site : Site) : Site → Site → Prop where
  | receiver : CallParts site (0 :: site) (0 :: 0 :: site)
  | other {k : Nat} : CallParts site ((k + 1) :: site) ((k + 1) :: site)

variable {site : Site}

theorem separate_callParts : Separate (CallParts site) := by
  intro s t s' t' h h' hs
  rcases h with _ | _ <;> rcases h' with _ | _ <;> have heq := hs.eq_of_length rfl <;> cases heq <;>
    exact ⟨rfl, rfl⟩

theorem separate_callParts_flip : Separate fun s t => CallParts site t s := by
  intro s t s' t' h h' hs
  rcases h with _ | _ <;> rcases h' with _ | _
  · exact ⟨rfl, rfl⟩
  · have hlength := hs.length_le
    simp only [List.length_cons] at hlength
    omega
  · rcases List.suffix_cons_iff.1 hs with heq | hs
    · have hlength := congrArg List.length heq
      simp at hlength
    · cases hs.eq_of_length rfl
  · cases hs.eq_of_length rfl
    exact ⟨rfl, rfl⟩

theorem inside_callParts {s t : Site} (h : CallParts site s t) :
    site.Inside s ∧ site.Inside t := by
  rcases h with _ | _
  · exact ⟨inside_cons List.suffix_rfl 0, inside_cons (List.suffix_cons 0 site) 0⟩
  · exact ⟨inside_cons List.suffix_rfl _, inside_cons List.suffix_rfl _⟩

end Site

theorem Field.exists_closure_of_get? {C : Closure → Closure → Prop} {fs gs : List Field}
    (h : List.Forall₂ (Field.Related C) fs gs) {key : String} {c : Closure}
    (hget : get? fs key = some (.closure c)) : ∃ d, get? gs key = some (.closure d) ∧ C c d := by
  have hrel := get?_related h key
  rw [hget] at hrel
  generalize get? gs key = y at hrel
  cases hrel with
  | some hvalue =>
    cases hvalue with
    | closure hcd => exact ⟨_, rfl, hcd⟩

/-- A value of one kind has the same kind at any other site and depth. -/
theorem Evaluates.not_string_of_map {a n : Nat} {s s' : Scope} {e : Expr} {fields : List Field}
    {text : String} (h : Evaluates n s e (.string text)) (h' : Evaluates a s' e (.map fields))
    (hprogram : s.program = s'.program) (henv : s.env = s'.env) : False := by
  obtain ⟨m, -, w, hw, hvw⟩ := h.exists_renewed (R := fun _ _ => True) s' trivial hprogram henv
  cases hvw
  have hstring : Expr.eval 0 (max m a) s' e = .ok (.string text) :=
    (Expr.eval_agrees 0 _).2 ⟨m, Nat.le_max_left m a, hw⟩
  have hmap : Expr.eval 0 (max m a) s' e = .ok (.map fields) :=
    (Expr.eval_agrees 0 _).2 ⟨a, Nat.le_max_right m a, h'⟩
  cases hstring.symm.trans hmap

section

variable {receiver access : Expr} {f : Name} {arguments : List Expr} {n : Nat} {scope : Scope}

theorem FieldAccess.exists_call (h : FieldAccess receiver f.text access) {s s' : Span} {v : Value}
    (hmethod : Evaluates n scope (.method receiver f arguments s) v) {a : Nat}
    {fields : List Field} (hmap : Evaluates a scope receiver (.map fields)) :
    ∃ m ≤ n + 1, ∃ w, Evaluates m scope (.apply access arguments s') w ∧
      v.RenewedIn scope.site w := by
  cases hmethod with
  | stringMethod hreceiver => exact (hreceiver.not_string_of_map hmap rfl rfl).elim
  | mapMethod hreceiver harguments hget hruns =>
    obtain ⟨b, hb, w, hreceiver', hrelated⟩ := hreceiver.exists_renewed
      (R := Site.CallParts scope.site) ((scope.part 0).part 0) .receiver rfl rfl
    cases hrelated with
    | map hfields =>
      obtain ⟨d, hget', hcd⟩ := Field.exists_closure_of_get? hfields hget
      obtain ⟨k, hk, w, hruns', hvw⟩ := hruns.exists_renewed hcd .other
      exact ⟨_, by omega, w, h.evaluates_call_iff.2
        ⟨b, _, k, _, d, _, rfl, hreceiver', hget', harguments, hruns'⟩, _,
        Site.renewal_under Site.separate_callParts Site.separate_callParts_flip
          Site.inside_callParts, hvw⟩

theorem FieldAccess.exists_method (h : FieldAccess receiver f.text access) {s s' : Span}
    {w : Value} (hcall : Evaluates n scope (.apply access arguments s) w) :
    ∃ m ≤ n, ∃ v, Evaluates m scope (.method receiver f arguments s') v ∧
      w.RenewedIn scope.site v := by
  obtain ⟨a, b, k, fields, c, values, rfl, hreceiver, hget, harguments, hruns⟩ :=
    h.evaluates_call_iff.1 hcall
  obtain ⟨a', ha, v, hreceiver', hrelated⟩ := hreceiver.exists_renewed
    (R := fun s t => Site.CallParts scope.site t s) (scope.part 0) .receiver rfl rfl
  cases hrelated with
  | map hfields =>
    obtain ⟨d, hget', hcd⟩ := Field.exists_closure_of_get? hfields hget
    obtain ⟨k', hk, v, hruns', hvw⟩ := hruns.exists_renewed hcd .other
    exact ⟨_, by omega, v, .mapMethod hreceiver' harguments hget' hruns', _,
      Site.renewal_under Site.separate_callParts_flip Site.separate_callParts
        fun hst => (Site.inside_callParts hst).symm, hvw⟩

end

/-- Where a method call of a map has a value, the call of its field has the same value one evaluation
more deeply, whether the field is read by its name or by its key. Where the call of the field has a
value, the method call has the same one no more deeply. The same value is meant up to the identity
of the frames that the calls make. -/
theorem Expr.calls_of_field {receiver access : Expr} (f : Name)
    (h : FieldAccess receiver f.text access) (arguments : List Expr) (s s' : Span)
    (limit limit' depth : Nat) (scope : Scope) :
    (∀ fields v, Expr.eval limit depth scope receiver = .ok (.map fields) →
      Expr.eval limit depth scope (.method receiver f arguments s) = .ok v →
      ∃ w, Expr.eval limit' (depth + 1) scope (.apply access arguments s') = .ok w ∧
        v.RenewedIn scope.site w) ∧
    ∀ w, Expr.eval limit depth scope (.apply access arguments s') = .ok w →
      ∃ v, Expr.eval limit' depth scope (.method receiver f arguments s) = .ok v ∧
        w.RenewedIn scope.site v := by
  constructor
  · intro fields v hmap hmethod
    obtain ⟨a, -, hmap⟩ := (eval_agrees limit depth).1 hmap
    obtain ⟨n, hn, hmethod⟩ := (eval_agrees limit depth).1 hmethod
    obtain ⟨m, hm, w, hcall, hvw⟩ := h.exists_call hmethod hmap
    exact ⟨w, (eval_agrees limit' (depth + 1)).2 ⟨m, by omega, hcall⟩, hvw⟩
  · intro w hcall
    obtain ⟨n, hn, hcall⟩ := (eval_agrees limit depth).1 hcall
    obtain ⟨m, hm, v, hmethod, hvw⟩ := h.exists_method hcall
    exact ⟨v, (eval_agrees limit' depth).2 ⟨m, by omega, hmethod⟩, hvw⟩

/-- A function that has captured a frame made by the receiver, called as a method and, with a limit
higher by one, by its name, and then by its key. -/
theorem Expr.calls_of_field_captured :
    let inner : Expr := .lambda [.of "y"] (.name (.of "a")) .nowhere
    let function : Expr := .letIn [⟨.of "a", .int 1 .nowhere⟩]
      (.lambda [.of "x"] inner .nowhere) .nowhere
    let receiver : Expr := .map [⟨.of "f", function⟩] .nowhere
    let member : Expr := .member receiver (.of "f") .nowhere
    let index : Expr := .index receiver (.template [.text "f"] .nowhere) .nowhere
    let outcome (e : Expr) := Program.evaluateIn ⟨e, []⟩ ⟨0, 0⟩ []
    let method := outcome (.method receiver (.of "f") [.int 2 .nowhere] .nowhere)
    let call (access : Expr) := outcome (.apply access [.int 2 .nowhere] .nowhere)
    let captured (site : Site) : Value := .closure ⟨⟨[.of "y"], .name (.of "a"), .nowhere⟩, 0,
      [⟨[0, 2, 0, 0], "x", .int 2⟩, ⟨site, "a", .int 1⟩]⟩
    FieldAccess receiver "f" member ∧ FieldAccess receiver "f" index ∧
      (∃ fields, outcome receiver 4 = .ok (.map fields)) ∧
      method 4 = .ok (captured [0, 0, 0, 0, 0]) ∧
      (∃ w, call member 5 = .ok w ∧ (captured [0, 0, 0, 0, 0]).RenewedIn [0, 0] w) ∧
      call index 5 = .ok (captured [0, 0, 0, 0, 0, 0]) ∧
      ∃ v, method 5 = .ok v ∧ (captured [0, 0, 0, 0, 0, 0]).RenewedIn [0, 0] v := by
  intro inner function receiver member index outcome method call captured
  have hmember : FieldAccess receiver "f" member := .member rfl
  have hindex : FieldAccess receiver "f" index := .index
  obtain ⟨fields, hmap⟩ : ∃ fields, outcome receiver 4 = .ok (.map fields) := ⟨_, by cbv⟩
  have hmethod : method 4 = .ok (captured [0, 0, 0, 0, 0]) := by cbv
  have hcall : call index 5 = .ok (captured [0, 0, 0, 0, 0, 0]) := by cbv
  obtain ⟨hlater, -⟩ :=
    calls_of_field (.of "f") hmember [.int 2 .nowhere] .nowhere .nowhere 4 5 4 ⟨0, [0, 0], []⟩
  obtain ⟨-, hback⟩ :=
    calls_of_field (.of "f") hindex [.int 2 .nowhere] .nowhere .nowhere 5 5 5 ⟨0, [0, 0], []⟩
  exact ⟨hmember, hindex, ⟨fields, hmap⟩, hmethod, hlater fields _ hmap hmethod, hcall,
    hback _ hcall⟩

end ConfigExpr
