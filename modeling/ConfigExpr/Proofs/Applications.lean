import ConfigExpr.Proofs.Limits
import ConfigExpr.Proofs.Renewed

/-!
# Blocks and applications

The block `let x₁ = e₁ … xₙ = eₙ in e` is `((x₁) => … ((xₙ) => e)(eₙ) …)(e₁)`. The applications nest
one evaluation more with each binding, so they fail where the block does not. Otherwise both end in
the same way (`Expr.block_of_applications`).
-/

namespace ConfigExpr

/-- The bindings as applications around the body, the first one outermost. -/
inductive Applications (body : Expr) : List Binding → Expr → Prop where
  | body : Applications body [] body
  | apply {b : Binding} {bs : List Binding} {p : Name} {inner : Expr} {span span' : Span} :
    p.text = b.name.text → Applications body bs inner →
    Applications body (b :: bs) (.apply (.lambda [p] inner span) [b.value] span')

/-! ## Sites -/

namespace Site

/-- Where the body of the `i`-th of the nested applications is evaluated. -/
def applied (site : Site) : Nat → Site
  | 0 => site
  | i + 1 => 0 :: 2 :: site.applied i

/-- Where the applications and the block evaluate the same part. -/
inductive BlockParts (site : Site) (n : Nat) : Site → Site → Prop where
  | value {i : Nat} : i < n → BlockParts site n (1 :: site.applied i) (i :: site)
  | body : BlockParts site n (site.applied n) (n :: site)

/-- The sites of the frames of the bindings and of those made in the parts. -/
def BlockFrames (site : Site) (n : Nat) (a b : Site) : Prop :=
  (∃ i < n, a = site.applied (i + 1) ∧ b = i :: site) ∨
    ∃ k s t, Under (BlockParts site n) s t ∧ a = k :: s ∧ b = k :: t

variable {site : Site} {n : Nat}

theorem blockFrames_cons {k : Nat} {a b : Site} (h : Under (BlockParts site n) a b) :
    BlockFrames site n (k :: a) (k :: b) :=
  .inr ⟨k, a, b, h, rfl, rfl⟩

theorem length_applied (site : Site) (i : Nat) :
    (site.applied i).length = site.length + 2 * i := by
  induction i with
  | zero => rfl
  | succ i ih =>
    simp only [applied, List.length_cons, ih]
    omega

theorem cons_applied_suffix {i j : Nat} (h : j < i) : 2 :: site.applied j <:+ site.applied i := by
  induction i with
  | zero => omega
  | succ i ih =>
    have hstep : 2 :: site.applied i <:+ site.applied (i + 1) := List.suffix_cons 0 _
    rcases Nat.lt_succ_iff_lt_or_eq.1 h with hlt | rfl
    · exact ((ih hlt).trans (List.suffix_cons 2 _)).trans hstep
    · exact hstep

theorem suffix_applied (site : Site) (i : Nat) : site <:+ site.applied i := by
  rcases Nat.eq_zero_or_pos i with rfl | hi
  · exact List.suffix_rfl
  · exact (List.suffix_cons 2 site).trans (cons_applied_suffix hi)

/-- The argument of an application is not evaluated inside the body of any. -/
theorem not_cons_applied_suffix (i j : Nat) : ¬ 1 :: site.applied j <:+ site.applied i := by
  intro h
  have hlength := h.length_le
  simp only [List.length_cons, length_applied] at hlength
  have hbody : 2 :: site.applied j <:+ site.applied i := cons_applied_suffix (by omega)
  have heq := (List.suffix_of_suffix_length_le h hbody (by simp)).eq_of_length (by simp)
  simp at heq

theorem applied_injective {i j : Nat} (h : site.applied i = site.applied j) : i = j := by
  have hlength := congrArg List.length h
  rw [length_applied, length_applied] at hlength
  omega

theorem separate_blockParts : Separate (BlockParts site n) := by
  intro s t s' t' h h' hs
  rcases h with @⟨i, hi⟩ | _ <;> rcases h' with @⟨j, hj⟩ | _
  · rcases List.suffix_cons_iff.1 hs with heq | hs
    · obtain rfl := applied_injective (List.cons.inj heq).2
      exact ⟨rfl, rfl⟩
    · exact absurd hs (not_cons_applied_suffix j i)
  · exact absurd hs (not_cons_applied_suffix n i)
  · -- the body stands deeper than any argument
    have hlength := hs.length_le
    simp only [List.length_cons, length_applied] at hlength
    omega
  · exact ⟨rfl, rfl⟩

theorem separate_blockParts_flip : Separate fun s t => BlockParts site n t s := by
  intro s t s' t' h h' hs
  rcases h with @⟨i, hi⟩ | _ <;> rcases h' with @⟨j, hj⟩ | _ <;>
    have heq := (List.cons.inj (hs.eq_of_length rfl)).1
  · obtain rfl : i = j := heq
    exact ⟨rfl, rfl⟩
  · omega
  · omega
  · exact ⟨rfl, rfl⟩

theorem suffix_of_under {a b : Site} (h : Under (BlockParts site n) a b) :
    site <:+ a ∧ site <:+ b := by
  obtain ⟨path, s, t, hst, rfl, rfl⟩ := h
  have hbase : site <:+ s ∧ site <:+ t := by
    rcases hst with @⟨i, hi⟩ | _
    · exact ⟨(suffix_applied site i).trans (List.suffix_cons 1 _), List.suffix_cons i site⟩
    · exact ⟨suffix_applied site n, List.suffix_cons n site⟩
  exact ⟨hbase.1.trans (List.suffix_append path s), hbase.2.trans (List.suffix_append path t)⟩

/-- A frame of a binding is not one made in a part. -/
theorem applied_ne_of_under {i k : Nat} {a b : Site} (h : Under (BlockParts site n) a b)
    (hi : i < n) : site.applied (i + 1) ≠ k :: a := by
  intro heq
  obtain ⟨path, s, t, hst, rfl, rfl⟩ := h
  rcases hst with @⟨j, hj⟩ | _
  · have hs : 1 :: site.applied j <:+ site.applied (i + 1) :=
      heq ▸ List.suffix_append (k :: path) _
    exact absurd hs (not_cons_applied_suffix (i + 1) j)
  · have hlength := congrArg List.length heq
    simp only [List.length_cons, List.length_append, length_applied] at hlength
    omega

theorem cons_ne_of_under {i k : Nat} {a b : Site} (h : Under (BlockParts site n) a b) :
    i :: site ≠ k :: b := by
  rintro ⟨⟩
  obtain ⟨path, s, t, hst, -, hb⟩ := h
  have hlength := congrArg List.length hb
  rcases hst with @⟨j, hj⟩ | _ <;> simp at hlength <;> omega

theorem renewal_blockFrames : site.Renewal (BlockFrames site n) where
  inside := by
    rintro a b (⟨i, -, rfl, rfl⟩ | ⟨k, s, t, hst, rfl, rfl⟩)
    · exact ⟨inside_cons ((suffix_applied site i).trans (List.suffix_cons 2 _)) 0,
        inside_cons List.suffix_rfl i⟩
    · obtain ⟨hs, ht⟩ := suffix_of_under hst
      exact ⟨inside_cons hs k, inside_cons ht k⟩
  unique := by
    constructor
    · rintro a b c (⟨i, hi, rfl, hc⟩ | ⟨k, s, t, hst, rfl, hc⟩)
        (⟨j, hj, rfl, hc'⟩ | ⟨l, s', t', hst', rfl, hc'⟩)
      · obtain ⟨rfl, -⟩ := List.cons.inj (hc.symm.trans hc')
        rfl
      · exact absurd (hc.symm.trans hc') (cons_ne_of_under hst')
      · exact absurd (hc'.symm.trans hc) (cons_ne_of_under hst)
      · obtain ⟨rfl, rfl⟩ := List.cons.inj (hc.symm.trans hc')
        rw [leftUnique_under separate_blockParts_flip hst hst']
    · rintro a b c (⟨i, hi, ha, rfl⟩ | ⟨k, s, t, hst, ha, rfl⟩)
        (⟨j, hj, ha', rfl⟩ | ⟨l, s', t', hst', ha', rfl⟩)
      · obtain rfl := Nat.succ.inj (applied_injective (ha.symm.trans ha'))
        rfl
      · exact absurd (ha.symm.trans ha') (applied_ne_of_under hst' hi)
      · exact absurd (ha'.symm.trans ha) (applied_ne_of_under hst hj)
      · obtain ⟨rfl, rfl⟩ := List.cons.inj (ha.symm.trans ha')
        rw [rightUnique_under separate_blockParts hst hst']

end Site

/-! ## Evaluation -/

/-- The value of an argument, and then the body of the function where its parameter is bound. -/
theorem Expr.eval_applied (limit depth : Nat) (scope : Scope) (p : Name) (inner e : Expr)
    (span span' : Span) :
    Expr.eval limit (depth + 2) scope (.apply (.lambda [p] inner span) [e] span') =
      Expr.eval limit (depth + 1) (scope.part 1) e >>= fun v =>
        Expr.eval limit (depth + 1) (((scope.part 2).bind 0 p.text v).part 0) inner := by
  let c : Closure := ⟨⟨[p], inner, span⟩, scope.program, scope.env⟩
  have hcall : Expr.eval limit (depth + 2) scope (.apply (.lambda [p] inner span) [e] span') =
      evalAll (Expr.eval limit (depth + 1)) scope 1 [e] >>= fun vs =>
        c.apply (Expr.eval limit (depth + 1)) (2 :: scope.site) vs span' := rfl
  rw [hcall, evalAll]
  cases Expr.eval limit (depth + 1) (scope.part 1) e <;> rfl

/-- The scopes of the applications and of the block after the first `i` bindings. -/
structure BlockScopes (site : Site) (n i : Nat) (s s' : Scope) : Prop where
  program_eq : s.program = s'.program
  site_eq : s.site = site.applied i
  site_eq' : s'.site = site
  env : Env.Renewed (Site.BlockFrames site n) s.env s'.env

variable {site : Site} {n i limit depth depth' : Nat} {s s' : Scope}

theorem BlockScopes.bind (h : BlockScopes site n i s s') (hi : i < n) {x y : String} (hname : x = y)
    {v w : Value} (hvw : v.Related (Closure.Renewed (Site.BlockFrames site n)) w) :
    BlockScopes site n (i + 1) (((s.part 2).bind 0 x v).part 0) (s'.bind i y w) := by
  have hsite : 0 :: 2 :: s.site = site.applied (i + 1) := by rw [h.site_eq, Site.applied]
  have hframe : Site.BlockFrames site n (0 :: 2 :: s.site) (i :: s'.site) :=
    .inl ⟨i, hi, hsite, by rw [h.site_eq']⟩
  exact ⟨h.program_eq, hsite, h.site_eq', .cons (.renewed hname hframe hvw) h.env⟩

namespace Correspondence

/-- The applications beside the block. -/
def block (site : Site) (n : Nat) : Correspondence :=
  renewing (R := Site.BlockParts site n) (F := Site.BlockFrames site n) Site.blockFrames_cons

theorem block_eval (hle : depth ≤ depth')
    (hsites : Site.BlockParts site n s.site s'.site) (hprogram : s.program = s'.program)
    (henv : Env.Renewed (Site.BlockFrames site n) s.env s'.env) (e : Expr) :
    (block site n).Outcomes (block site n).Values (Expr.eval limit depth s e)
      (Expr.eval limit depth' s' e) :=
  renewing_eval Site.blockFrames_cons hle hprogram (.self hsites) henv e

/-- An application beside the binding that it stands for. -/
theorem block_applied (h : BlockScopes site n i s s') (hi : i < n) (hle : depth ≤ depth') {p : Name}
    {b : Binding} (hname : p.text = b.name.text) {inner : Expr} (span span' : Span)
    {rest : Scope → Except EvalError Value}
    (hinner : ∀ t t', BlockScopes site n (i + 1) t t' →
      (block site n).Outcomes (block site n).Values (Expr.eval limit depth t inner) (rest t')) :
    (block site n).Outcomes (block site n).Values
      (Expr.eval limit (depth + 1) s (.apply (.lambda [p] inner span) [b.value] span'))
      (Expr.eval limit depth' (s'.part i) b.value >>= fun v => rest (s'.bind i b.name.text v)) := by
  cases depth with
  | zero => exact .excused ⟨limit, rfl⟩
  | succ depth =>
    rw [Expr.eval_applied]
    have hvalue : Site.BlockParts site n (s.part 1).site (s'.part i).site := by
      rw [Scope.part, Scope.part, h.site_eq, h.site_eq']
      exact .value hi
    refine (block_eval hle hvalue h.program_eq h.env b.value).bind fun {v w} hvw => ?_
    exact hinner _ _ (h.bind hi hname hvw)

/-- By induction on the bindings, with as many before them as frames of theirs in the scopes. -/
theorem block_applications {body nested : Expr} {bs : List Binding}
    (h : Applications body bs nested) (hs : BlockScopes site n i s s') (hn : i + bs.length = n)
    (hle : depth ≤ depth') :
    (block site n).Outcomes (block site n).Values (Expr.eval limit depth s nested)
      (evalBindings (Expr.eval limit depth') s' i bs >>= fun x =>
        Expr.eval limit depth' (x.2.part x.1) body) := by
  induction h generalizing s s' i depth with
  | body =>
    obtain rfl : i = n := hn
    have hbody : Site.BlockParts site i s.site (s'.part i).site := by
      rw [Scope.part, hs.site_eq, hs.site_eq']
      exact .body
    exact block_eval hle hbody hs.program_eq hs.env body
  | @apply b bs p inner span span' hname _ ih =>
    rw [List.length_cons] at hn
    cases depth with
    | zero => exact .excused ⟨limit, rfl⟩
    | succ depth =>
      have hle' : depth ≤ depth' := Nat.le_of_succ_le hle
      rw [evalBindings, bind_assoc]
      exact block_applied hs (by omega) hle' hname span span' fun t t' ht =>
        ih ht (by omega) hle'

end Correspondence

theorem sameOutcome_of_finished {x y : Except EvalError Value}
    (h : (Correspondence.block site n).Outcomes (Correspondence.block site n).Values x y)
    (hx : Finished x) : SameOutcome site x y := by
  cases h with
  | ok hvw => exact .ok ⟨_, Site.renewal_blockFrames, hvw⟩
  | error => exact .error
  | @excused e _ he =>
    obtain ⟨limit, hfault⟩ := he
    obtain ⟨fault, span⟩ := e
    cases hfault
    exact absurd rfl (hx limit span)

/-- Unless nested applications nest too deeply, the block of their bindings ends in the same way
under the same limit: with the same error at the same place, or with the same value up to the
identity of the frames made on the way. -/
theorem Expr.block_of_applications {body nested : Expr} {bs : List Binding}
    (h : Applications body bs nested) (hne : bs ≠ []) (limit depth : Nat) (scope : Scope)
    (span : Span) (hfinished : Finished (Expr.eval limit depth scope nested)) :
    SameOutcome scope.site (Expr.eval limit depth scope nested)
      (Expr.eval limit depth scope (.letIn bs body span)) := by
  -- The outermost application is at the depth of the block, all others are deeper.
  refine sameOutcome_of_finished (n := bs.length) ?_ hfinished
  have hscope : BlockScopes scope.site bs.length 0 scope scope :=
    ⟨rfl, rfl, rfl, Env.renewed_self scope.env⟩
  cases depth with
  | zero => exact absurd rfl (hfinished limit nested.span)
  | succ depth =>
    cases h with
    | body => exact absurd rfl hne
    | @apply b bs p inner _ _ hname h =>
      have hblock : Expr.eval limit (depth + 1) scope (.letIn (b :: bs) body span) =
          Expr.eval limit depth (scope.part 0) b.value >>= fun v =>
            evalBindings (Expr.eval limit depth) (scope.bind 0 b.name.text v) 1 bs >>= fun x =>
              Expr.eval limit depth (x.2.part x.1) body := bind_assoc ..
      rw [hblock]
      exact Correspondence.block_applied hscope (Nat.succ_pos _) (Nat.le_refl depth) hname _ _
        fun t t' ht => Correspondence.block_applications h ht (Nat.add_comm 1 _) (Nat.le_refl depth)

/-- Two bindings of one name. The function has captured the second one and the first one below it,
which the applications have bound at other sites than the block. -/
theorem Expr.block_of_applications_shadowed :
    let items : Expr := .list [.name (.of "x")] .nowhere
    let body : Expr := .lambda [.of "y"] (.name (.of "x")) .nowhere
    let bs : List Binding := [⟨.of "x", .int 1 .nowhere⟩, ⟨.of "x", items⟩]
    let nested : Expr := .apply (.lambda [.of "x"]
      (.apply (.lambda [.of "x"] body .nowhere) [items] .nowhere) .nowhere)
      [.int 1 .nowhere] .nowhere
    let captured (second first : Site) : Value :=
      .closure ⟨⟨[.of "y"], .name (.of "x"), .nowhere⟩, 0,
        [⟨second, "x", .list [.int 1]⟩, ⟨first, "x", .int 1⟩]⟩
    let outcome := Program.evaluateIn ⟨nested, []⟩ ⟨0, 0⟩ [] 4
    let block := Program.evaluateIn ⟨.letIn bs body .nowhere, []⟩ ⟨0, 0⟩ [] 4
    Applications body bs nested ∧ bs ≠ [] ∧ Finished outcome ∧
      outcome = .ok (captured [0, 2, 0, 2, 0, 0] [0, 2, 0, 0]) ∧
      block = .ok (captured [1, 0, 0] [0, 0, 0]) ∧ SameOutcome [0, 0] outcome block := by
  intro items body bs nested captured outcome block
  have happlications : Applications body bs nested := .apply rfl (.apply rfl .body)
  have houtcome : outcome = .ok (captured [0, 2, 0, 2, 0, 0] [0, 2, 0, 0]) := by cbv
  have hblock : block = .ok (captured [1, 0, 0] [0, 0, 0]) := by cbv
  have hfinished : Finished outcome := houtcome ▸ finished_ok _
  have hne : bs ≠ [] := List.cons_ne_nil _ _
  exact ⟨happlications, hne, hfinished, houtcome, hblock,
    block_of_applications happlications hne 4 4 ⟨0, [0, 0], []⟩ .nowhere hfinished⟩

end ConfigExpr
