import ConfigExpr.Proofs.Counted
import ConfigExpr.Proofs.Renewed

/-!
# The counter and the frames of a run

Every evaluation leaves the counter where it was, has the outcome of `Expr.eval` at the depth that
is left, and makes its frames at sites inside its own, no two at the same (`Counted.refines_eval`).
So each application of a fold begins where the fold began (`Counted.run_foldFrom_application`), no two
frames of a run have the same site (`Program.counted_evaluateWith`), and frames of runs with other
numbers have other sites (`Site.Inside.ne_of_number`).
-/

namespace ConfigExpr

/-! ## Sites -/

namespace Site

variable {site s t : Site} {j k l m : Nat}

/-- A site in the parts of another from number `k` up to number `l`. -/
def Among (site : Site) (k l : Nat) (s : Site) : Prop :=
  ∃ j, k ≤ j ∧ j < l ∧ j :: site <:+ s

theorem Among.inside (h : site.Among k l s) : site.Inside s := by
  obtain ⟨j, -, -, hs⟩ := h
  exact ⟨(List.suffix_cons j site).trans hs, hs.length_le⟩

theorem Among.mono (h : site.Among k l s) (hk : j ≤ k) (hl : l ≤ m) : site.Among j m s := by
  obtain ⟨i, hki, hil, hs⟩ := h
  exact ⟨i, by omega, by omega, hs⟩

theorem among_part (k : Nat) : site.Among k (k + 1) (k :: site) :=
  ⟨k, Nat.le_refl k, Nat.lt_succ_self k, List.suffix_refl _⟩

theorem Inside.among (h : Site.Inside (k :: site) s) : site.Among k (k + 1) s :=
  ⟨k, Nat.le_refl k, Nat.lt_succ_self k, h.1⟩

theorem not_inside_self : ¬ site.Inside site :=
  fun h => Nat.lt_irrefl _ h.2

theorem head_eq_of_suffix {p q : Site} (hp : j :: p <:+ s) (hq : k :: q <:+ s)
    (hlength : p.length = q.length) : j = k := by
  have hsuffix : j :: p <:+ k :: q := List.suffix_of_suffix_length_le hp hq (by simp [hlength])
  exact (List.cons.inj (hsuffix.eq_of_length (by simp [hlength]))).1

/-- A site is in one part only. -/
theorem Among.not_among (h : site.Among j k s) (hk : k ≤ l) : ¬ site.Among l m s := by
  obtain ⟨i, -, hik, hi⟩ := h
  rintro ⟨i', hli, -, hi'⟩
  have heq : i = i' := head_eq_of_suffix hi hi' rfl
  omega

/-- Runs with different numbers make frames at different sites. -/
theorem Inside.ne_of_number {n n' : Nat} (hs : Site.Inside [n] s) (ht : Site.Inside [n'] t)
    (h : n ≠ n') : s ≠ t := by
  rintro rfl
  exact h (head_eq_of_suffix hs.1 ht.1 rfl)

end Site

@[simp] theorem Scope.site_bindAll (scope : Scope) (k : Nat) (bindings : List (String × Value)) :
    (scope.bindAll k bindings).site = scope.site := by
  induction bindings generalizing scope k with
  | nil => rfl
  | cons binding others ih => exact ih _ (k + 1)

theorem evalBindings_scope {eval : Evaluator} {scope inner : Scope} {k l : Nat}
    {bs : List Binding} (h : evalBindings eval scope k bs = .ok (l, inner)) :
    l = k + bs.length ∧ inner.site = scope.site := by
  induction bs generalizing scope k with
  | nil =>
    cases h
    exact ⟨rfl, rfl⟩
  | cons b bs ih =>
    obtain ⟨v, -, h⟩ := bind_eq_ok_iff.1 h
    obtain ⟨rfl, hsite⟩ := ih h
    exact ⟨by rw [List.length_cons]; omega, hsite⟩

namespace Counted

variable {α β : Type} {P Q : Site → Prop} {d : Nat}

/-! ## Computations -/

/-- With the counter at `d` the computation comes to the outcome and leaves the counter at `d`, and
it makes frames at sites of `P`, no two at the same. -/
def Gives (d : Nat) (P : Site → Prop) (x : Counted α) (outcome : Except EvalError α) : Prop :=
  ∀ frames, ∃ made, x.run.run ⟨d, frames⟩ = (outcome, ⟨d, made ++ frames⟩) ∧ made.Nodup ∧
    ∀ s ∈ made, P s

theorem Gives.mono {x : Counted α} {o : Except EvalError α} (h : Gives d P x o)
    (hPQ : ∀ s, P s → Q s) : Gives d Q x o := by
  intro frames
  obtain ⟨made, hrun, hnodup, hmade⟩ := h frames
  exact ⟨made, hrun, hnodup, fun s hs => hPQ s (hmade s hs)⟩

theorem gives_done (o : Except EvalError α) : Gives d P (done o) o :=
  fun _ => ⟨[], rfl, List.nodup_nil, nofun⟩

theorem gives_pure (a : α) : Gives d P (pure a) (.ok a) :=
  gives_done (.ok a)

theorem gives_throw (e : EvalError) : Gives (α := α) d P (throw e) (.error e) :=
  gives_done (.error e)

theorem gives_bindOne (scope : Scope) (k : Nat) (name : String) (value : Value) :
    Gives d (· = k :: scope.site) (bindOne scope k name value) (.ok (scope.bind k name value)) :=
  fun _ => ⟨[k :: scope.site], rfl, List.pairwise_singleton _ _, fun _ => List.mem_singleton.1⟩

/-- A computation after another one, where they make frames at different sites. -/
theorem Gives.bind {x : Counted α} {f : α → Counted β} {o : Except EvalError α}
    {g : α → Except EvalError β} (hx : Gives d P x o) (hf : ∀ a, o = .ok a → Gives d Q (f a) (g a))
    (hPQ : ∀ s, P s → ¬ Q s) : Gives d (fun s => P s ∨ Q s) (x >>= f) (o >>= g) := by
  intro frames
  obtain ⟨made, hrun, hnodup, hmade⟩ := hx frames
  cases o with
  | error e =>
    refine ⟨made, ?_, hnodup, fun s hs => .inl (hmade s hs)⟩
    rw [ExceptT.run_bind, StateT.run_bind, hrun]
    rfl
  | ok a =>
    obtain ⟨made', hrun', hnodup', hmade'⟩ := hf a rfl (made ++ frames)
    refine ⟨made' ++ made, ?_, List.nodup_append.2 ⟨hnodup', hnodup, ?_⟩, fun s hs => ?_⟩
    · rw [ExceptT.run_bind, StateT.run_bind, hrun, List.append_assoc]
      exact hrun'
    · rintro s hs _ ht rfl
      exact hPQ s (hmade s ht) (hmade' s hs)
    · rcases List.mem_append.1 hs with hs | hs
      · exact .inr (hmade' s hs)
      · exact .inl (hmade s hs)

/-- A computation that comes to a value, and one that goes on with the value. -/
theorem Gives.seq {x : Counted α} {a : α} {f : α → Counted β} {o : Except EvalError β}
    (hx : Gives d P x (.ok a)) (hf : Gives d Q (f a) o) (hPQ : ∀ s, P s → ¬ Q s) :
    Gives d (fun s => P s ∨ Q s) (x >>= f) o := by
  refine hx.bind (g := fun _ => o) ?_ hPQ
  rintro _ ⟨⟩
  exact hf

/-- A computation after which no frame is made. -/
theorem Gives.followed {x : Counted α} {f : α → Counted β} {o : Except EvalError α}
    {g : α → Except EvalError β} (hx : Gives d P x o)
    (hf : ∀ a, Gives d (fun _ => False) (f a) (g a)) : Gives d P (x >>= f) (o >>= g) :=
  (hx.bind (fun a _ => hf a) fun _ _ => id).mono fun _ hs => hs.resolve_right id

/-- A computation in some parts of a site, and after it one in later parts. -/
theorem Gives.andThen {site : Site} {k l m : Nat} {x : Counted α} {f : α → Counted β}
    {o : Except EvalError α} {g : α → Except EvalError β} (hx : Gives d (site.Among k l) x o)
    (hf : ∀ a, o = .ok a → Gives d (site.Among l m) (f a) (g a)) (hkl : k ≤ l) (hlm : l ≤ m) :
    Gives d (site.Among k m) (x >>= f) (o >>= g) := by
  refine (hx.bind hf fun s hs => hs.not_among (Nat.le_refl l)).mono fun s hs => ?_
  rcases hs with hs | hs
  · exact hs.mono (Nat.le_refl k) hlm
  · exact hs.mono hkl (Nat.le_refl m)

theorem Gives.inPart {site : Site} {k : Nat} {x : Counted α} {o : Except EvalError α}
    (h : Gives d (Site.Inside (k :: site)) x o) : Gives d (site.Among k (k + 1)) x o :=
  h.mono fun _ => Site.Inside.among

theorem Gives.within {site : Site} {k l : Nat} {x : Counted α} {o : Except EvalError α}
    (h : Gives d (site.Among k l) x o) : Gives d site.Inside x o :=
  h.mono fun _ => Site.Among.inside

theorem gives_bindAll (scope : Scope) (k : Nat) (bindings : List (String × Value)) :
    Gives d (fun s => ∃ j, k ≤ j ∧ s = j :: scope.site) (bindAll scope k bindings)
      (.ok (scope.bindAll k bindings)) := by
  induction bindings generalizing scope k with
  | nil => exact gives_pure scope
  | cons binding others ih =>
    obtain ⟨name, value⟩ := binding
    have hothers := ih (scope.bind k name value) (k + 1)
    refine ((gives_bindOne scope k name value).seq hothers ?_).mono ?_
    · rintro _ rfl ⟨j, hj, heq⟩
      cases heq
      omega
    · rintro s (rfl | ⟨j, hj, rfl⟩)
      · exact ⟨k, Nat.le_refl k, rfl⟩
      · exact ⟨j, by omega, rfl⟩

/-! ## One step -/

/-- With the counter at `d` the first evaluator has the outcomes of the second, and each evaluation
makes its frames inside its site. -/
def Refines (d : Nat) (eval : Evaluator) (eval' : ConfigExpr.Evaluator) : Prop :=
  ∀ scope e, Gives d scope.site.Inside (eval scope e) (eval' scope e)

namespace Refines

variable {eval : Evaluator} {eval' : ConfigExpr.Evaluator} (h : Refines d eval eval')

include h

theorem inside (scope : Scope) (k : Nat) (e : Expr) :
    Gives d (Site.Inside (k :: scope.site)) (eval (scope.part k) e) (eval' (scope.part k) e) :=
  h (scope.part k) e

theorem part (scope : Scope) (k : Nat) (e : Expr) :
    Gives d (scope.site.Among k (k + 1)) (eval (scope.part k) e) (eval' (scope.part k) e) :=
  (h.inside scope k e).inPart

theorem evalAll (scope : Scope) {k l : Nat} (es : List Expr) (hl : k + es.length ≤ l) :
    Gives d (scope.site.Among k l) (evalAll eval scope k es)
      (ConfigExpr.evalAll eval' scope k es) := by
  induction es generalizing k with
  | nil => exact gives_pure []
  | cons e es ih =>
    rw [List.length_cons] at hl
    refine (h.part scope k e).andThen (fun v _ => ?_) (by omega) (by omega)
    exact (ih (by omega)).followed fun vs => gives_pure _

/-- The frames of the arguments are made beside the part in which the body is evaluated. -/
theorem apply (c : Closure) (site : Site) (arguments : List Value) (span : Span) :
    Gives d site.Inside (apply eval c site arguments span)
      (c.apply eval' site arguments span) := by
  unfold Counted.apply Closure.apply
  split
  · have hbody := h.inside (Scope.bindAll ⟨c.program, site, c.env⟩ 0
      ((c.lambda.parameters.map (·.text)).zip arguments)) 0 c.lambda.body
    rw [Scope.site_bindAll] at hbody
    refine ((gives_bindAll ⟨c.program, site, c.env⟩ 0 _).seq hbody ?_).mono ?_
    · rintro _ ⟨j, -, rfl⟩ hs
      exact Nat.lt_irrefl _ hs.2
    · rintro s (⟨j, -, rfl⟩ | hs)
      · exact Site.inside_cons (List.suffix_refl site) j
      · exact hs.among.inside
  · exact gives_throw _

theorem foldFrom (c : Closure) (site : Site) (span : Span) (k : Nat) (acc : Value)
    (steps : List (Value × Value)) :
    Gives d (site.Among k (k + steps.length)) (foldFrom eval c site span k acc steps)
      (ConfigExpr.foldFrom eval' c site span k acc steps) := by
  induction steps generalizing k acc with
  | nil => exact gives_pure acc
  | cons step others ih =>
    obtain ⟨index, item⟩ := step
    rw [List.length_cons]
    have hstep := h.apply c (k :: site) [acc, index, item] span
    refine hstep.inPart.andThen (fun next _ => ?_) (by omega) (by omega)
    exact (ih (k + 1) next).mono fun _ hs => hs.mono (Nat.le_refl _) (by omega)

theorem foldValues (site : Site) (arguments : List Value) (span : Span) :
    Gives d site.Inside (foldValues eval site arguments span)
      (ConfigExpr.foldValues eval' site arguments span) := by
  by_cases hlength : arguments.length = 3
  · match arguments, hlength with
    | [acc, function, collection], _ =>
      cases function with
      | closure c =>
        unfold Counted.foldValues ConfigExpr.foldValues
        dsimp only
        cases foldSteps? collection with
        | some steps => exact (h.foldFrom c site span 0 acc steps).within
        | none => exact gives_throw _
      | _ => exact gives_throw _
  · rw [Correspondence.foldValues_of_length_ne span hlength]
    unfold Counted.foldValues
    split
    · cases hlength rfl
    · cases hlength rfl
    · exact gives_throw _

theorem call (b : Builtin) (site : Site) (arguments : List Value) (span : Span) :
    Gives d site.Inside (call eval b site arguments span)
      (b.call eval' site arguments span) := by
  cases b with
  | concat => exact gives_done _
  | merge => exact gives_done _
  | fold => exact h.foldValues site arguments span

/-- Each frame is made after the part that its value comes from, at the site of that part. -/
theorem evalBindings (scope : Scope) {k l : Nat} (bs : List Binding) (hl : k + bs.length ≤ l) :
    Gives d (scope.site.Among k l) (evalBindings eval scope k bs)
      (ConfigExpr.evalBindings eval' scope k bs) := by
  induction bs generalizing scope k with
  | nil => exact gives_pure (k, scope)
  | cons b bs ih =>
    rw [List.length_cons] at hl
    have hpart : ∀ s, s = k :: scope.site → ¬ scope.site.Among (k + 1) l s := by
      rintro _ rfl
      exact (Site.among_part k).not_among (Nat.le_refl _)
    refine ((h.inside scope k b.value).bind (fun v _ => (gives_bindOne scope k b.name.text v).seq
      (ih (scope.bind k b.name.text v) (by omega)) hpart) ?_).mono ?_
    · rintro s hs (rfl | hs')
      · exact Site.not_inside_self hs
      · exact hs.among.not_among (Nat.le_refl _) hs'
    · rintro s (hs | rfl | hs)
      · exact hs.among.mono (Nat.le_refl k) (by omega)
      · exact (Site.among_part k).mono (Nat.le_refl k) (by omega)
      · exact hs.mono (by omega) (Nat.le_refl l)

theorem evalFields (scope : Scope) {k l : Nat} (es : List Entry) (hl : k + es.length ≤ l) :
    Gives d (scope.site.Among k l) (evalFields eval scope k es)
      (ConfigExpr.evalFields eval' scope k es) := by
  induction es generalizing k with
  | nil => exact gives_pure []
  | cons e es ih =>
    rw [List.length_cons] at hl
    refine (h.part scope k e.value).andThen (fun v _ => ?_) (by omega) (by omega)
    exact (ih (by omega)).followed fun fields => gives_pure _

theorem evalMap (scope : Scope) (entries : List Entry) (span : Span) :
    Gives d scope.site.Inside (evalMap eval scope entries span)
      (ConfigExpr.evalMap eval' scope entries span) := by
  have hfields := h.evalFields scope (k := 0) entries (Nat.le_refl _)
  refine hfields.within.followed fun fields => ?_
  cases Value.ofFields fields with
  | ok map => exact gives_pure map
  | error key => exact gives_throw _

theorem evalSegments (scope : Scope) {k l : Nat} (segments : List Segment)
    (hl : k + segments.length ≤ l) :
    Gives d (scope.site.Among k l) (evalSegments eval scope k segments)
      (ConfigExpr.evalSegments eval' scope k segments) := by
  induction segments generalizing k with
  | nil => exact gives_pure ""
  | cons segment others ih =>
    rw [List.length_cons] at hl
    have hothers := ih (k := k + 1) (by omega)
    cases segment with
    | text text =>
      exact (hothers.followed fun rest => gives_pure _).mono
        fun _ hs => hs.mono (by omega) (Nat.le_refl l)
    | code e =>
      refine (h.part scope k e).andThen (fun v _ => ?_) (by omega) (by omega)
      cases v.interpolated? with
      | none => exact gives_throw _
      | some text => exact hothers.followed fun rest => gives_pure _

theorem evalCall (scope : Scope) (callee : Expr) (arguments : List Expr) (span : Span) :
    Gives d scope.site.Inside (evalCall eval scope callee arguments span)
      (ConfigExpr.evalCall eval' scope callee arguments span) := by
  have hargs := h.evalAll scope (k := 1) (l := arguments.length + 1) arguments (by omega)
  refine ((h.part scope 0 callee).andThen (m := arguments.length + 2) (fun v _ => ?_)
    (by omega) (by omega)).within
  cases v with
  | closure c =>
    exact hargs.andThen (fun vs _ => (h.apply c _ vs span).inPart) (by omega) (by omega)
  | _ => exact gives_throw _

theorem callMethod (site : Site) (receiver : Value) (name : Name) (arguments : List Value)
    (span : Span) : Gives d site.Inside (callMethod eval site receiver name arguments span)
      (ConfigExpr.callMethod eval' site receiver name arguments span) := by
  cases receiver with
  | map fields =>
    unfold Counted.callMethod ConfigExpr.callMethod
    dsimp only
    rcases Field.get? fields name.text with _ | ⟨_ | _ | _ | _ | _ | _ | c⟩
    case some.closure => exact h.apply c site arguments span
    all_goals exact gives_throw _
  | string text =>
    unfold Counted.callMethod ConfigExpr.callMethod
    dsimp only
    cases Method.ofName? name.text with
    | some method => exact gives_done _
    | none => exact gives_throw _
  | _ => exact gives_throw _

theorem step : Refines d (step eval) (Expr.step eval') := by
  intro scope e
  cases e with
  | int value _ => exact gives_pure _
  | float value _ => exact gives_pure _
  | bool value _ => exact gives_pure _
  | lambda parameters body span => exact gives_pure _
  | template segments _ =>
    have htext := h.evalSegments scope (k := 0) segments (Nat.le_refl _)
    exact htext.within.followed fun text => gives_pure _
  | name n =>
    unfold Counted.step Expr.step
    dsimp only
    cases scope.env.lookup? n.text with
    | some value => exact gives_pure value
    | none => exact gives_throw _
  | letIn bindings body _ =>
    have hbindings := h.evalBindings scope (k := 0) bindings (Nat.le_refl _)
    refine (hbindings.andThen (m := 0 + bindings.length + 1) ?_ (by omega) (by omega)).within
    rintro ⟨l, inner⟩ hinner
    obtain ⟨rfl, hsite⟩ := evalBindings_scope hinner
    rw [← hsite]
    exact h.part inner _ body
  | apply callee arguments span =>
    unfold Counted.step Expr.step
    dsimp only
    cases builtin? scope.env callee with
    | some b =>
      have hargs := h.evalAll scope (k := 0) (l := arguments.length) arguments (by omega)
      exact (hargs.andThen (fun vs _ => (h.call b _ vs span).inPart) (by omega) (by omega)).within
    | none => exact h.evalCall scope callee arguments span
  | map entries span => exact h.evalMap scope entries span
  | list items _ =>
    have hitems := h.evalAll scope (k := 0) items (Nat.le_refl _)
    exact hitems.within.followed fun values => gives_pure _
  | member receiver n _ =>
    exact (h.part scope 0 receiver).within.followed fun value => gives_done _
  | method receiver n arguments span =>
    have hargs := h.evalAll scope (k := 1) (l := arguments.length + 1) arguments (by omega)
    refine ((h.part scope 0 receiver).andThen (m := arguments.length + 2) (fun v _ => ?_)
      (by omega) (by omega)).within
    exact hargs.andThen (fun vs _ => (h.callMethod _ v n vs span).inPart) (by omega) (by omega)
  | index receiver key _ =>
    refine ((h.part scope 0 receiver).andThen (m := 2) (fun v _ => ?_) (by omega)
      (by omega)).within
    exact (h.part scope 1 key).followed fun position => gives_done _

end Refines

/-! ## Runs -/

theorem run_nested (x : Counted α) (s : Counter) :
    (nested x).run.run s = let (outcome, t) := x.run.run { s with depth := s.depth + 1 }
      (outcome, { t with depth := t.depth - 1 }) := rfl

theorem Gives.nested {x : Counted α} {o : Except EvalError α} (h : Gives (d + 1) P x o) :
    Gives d P (nested x) o := by
  intro frames
  obtain ⟨made, hrun, hmade⟩ := h frames
  refine ⟨made, ?_, hmade⟩
  rw [run_nested, hrun]
  rfl

theorem run_eval_succ (limit fuel : Nat) (scope : Scope) (e : Expr) (s : Counter) :
    (eval limit (fuel + 1) scope e).run.run s =
      if limit ≤ s.depth then (.error ⟨.tooDeep limit, e.span⟩, s)
      else (nested (step (eval limit fuel) scope e)).run.run s := by
  show (if limit ≤ s.depth then throw _ else nested _ : Counted Value).run.run s = _
  split <;> rfl

/-- With the counter at `d` there are `limit - d` evaluations left, and fuel that covers them is not
used up. -/
theorem refines_eval {limit fuel : Nat} (h : limit ≤ fuel + d) :
    Refines d (eval limit fuel) (Expr.eval limit (limit - d)) := by
  -- one evaluation more takes one from the fuel and adds one to the counter
  induction fuel generalizing d with
  | zero =>
    rw [Nat.sub_eq_zero_of_le (by omega)]
    exact fun _ e => gives_throw _
  | succ fuel ih =>
    intro scope e frames
    rw [run_eval_succ]
    by_cases hle : limit ≤ d
    · rw [Nat.sub_eq_zero_of_le hle, if_pos hle]
      exact ⟨[], rfl, List.nodup_nil, nofun⟩
    · have hsub : limit - d = limit - (d + 1) + 1 := by omega
      rw [hsub, if_neg hle]
      exact ((ih (by omega)).step scope e).nested frames

/-- The counter goes up to two and back, and the one frame is that of the binding. -/
example :
    let block : Expr := .letIn [⟨.of "x", .int 1 .nowhere⟩] (.name (.of "x")) .nowhere
    (eval 2 2 ⟨0, [0, 7], []⟩ block).run.run ⟨0, []⟩ = (.ok (.int 1), ⟨0, [[0, 0, 7]]⟩) := rfl

/-! ## Folds -/

theorem foldFrom_append (eval : Evaluator) (c : Closure) (site : Site) (span : Span) (k : Nat)
    (acc : Value) (steps others : List (Value × Value)) :
    foldFrom eval c site span k acc (steps ++ others) =
      foldFrom eval c site span k acc steps >>= fun acc =>
        foldFrom eval c site span (k + steps.length) acc others := by
  induction steps generalizing k acc with
  | nil => simp [foldFrom]
  | cons step steps ih =>
    obtain ⟨index, item⟩ := step
    simp only [List.cons_append, foldFrom, bind_assoc, ih, List.length_cons, Nat.add_assoc,
      Nat.add_comm 1]

/-- Each application of a fold begins with the counter where it was at the start of the fold. -/
theorem run_foldFrom_application {limit fuel : Nat} (h : limit ≤ fuel + d) {c : Closure}
    {site : Site} {span : Span} {k : Nat} {first acc : Value} {steps : List (Value × Value)}
    (hacc : ConfigExpr.foldFrom (Expr.eval limit (limit - d)) c site span k first steps = .ok acc)
    (index item : Value) (others : List (Value × Value)) (frames : List Site) :
    ∃ made,
      (foldFrom (eval limit fuel) c site span k first (steps ++ (index, item) :: others)).run.run
          ⟨d, frames⟩ =
        (apply (eval limit fuel) c ((k + steps.length) :: site) [acc, index, item] span >>=
          fun next => foldFrom (eval limit fuel) c site span (k + steps.length + 1) next
            others).run.run ⟨d, made ++ frames⟩ := by
  obtain ⟨made, hrun, -⟩ := (refines_eval h).foldFrom c site span k first steps frames
  refine ⟨made, ?_⟩
  rw [foldFrom_append, ExceptT.run_bind, StateT.run_bind, hrun, hacc]
  rfl

end Counted

/-! ## Programs -/

namespace Program

open Counted

/-- A program that is evaluated leaves the counter at zero, and makes its frames inside the site
that its run begins at, no two at the same. -/
theorem counted_evaluateIn (p : Program) (run : Run) (env : Env) (limit : Nat) :
    Gives 0 (Site.Inside [0, run.number]) (Counted.evaluateIn p run env limit)
      (p.evaluateIn run env limit) :=
  refines_eval (Nat.le_refl limit) _ _

/-- No two frames that a run makes have the same site, those of its arguments included. -/
theorem counted_evaluateWith (p : Program) (run : Run) (arguments : List (String × Value))
    (limit : Nat) :
    Gives 0 (Site.Inside [run.number]) (Counted.evaluateWith p run arguments limit)
      (p.evaluateWith run arguments limit) := by
  have hargs := gives_bindAll (d := 0) ⟨run.program, [run.number], []⟩ 0 arguments
  unfold Program.evaluateWith
  refine (hargs.seq ((p.counted_evaluateIn run (argumentEnv run arguments) limit).bind
    (Q := Site.Inside [1, run.number]) (fun value _ => ?_) ?_) ?_).mono ?_
  · cases value with
    | closure c =>
      refine ((gives_done (P := fun _ => False) _).bind (fun values _ => ?_)
        fun _ hs => hs.elim).mono fun s hs => hs.resolve_left id
      exact (refines_eval (Nat.le_refl limit)).apply c [1, run.number] values p.expression.span
    | _ => exact gives_pure _
  · exact fun s hs ht => hs.among.not_among (Nat.le_refl 1) ht.among
  · rintro _ ⟨j, -, rfl⟩ (hs | hs)
    · exact Nat.lt_irrefl _ hs.2
    · exact Nat.lt_irrefl _ hs.2
  · rintro s (⟨j, -, rfl⟩ | hs | hs)
    · exact Site.inside_cons (List.suffix_refl _) j
    · exact hs.among.inside
    · exact hs.among.inside

end Program

end ConfigExpr
