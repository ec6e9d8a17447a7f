import ConfigExpr.Proofs.Everywhere
import ConfigExpr.Proofs.Grammar

/-!
# Properties of derived trees

A `TreeProperty` asks something of tokens, those of the code in strings included, and what it says
of an expression each rule of the grammar gives to the expressions it makes of such tokens. So it
holds of all parts of what they derive (`Grammar.Expression.everywhere`).
-/

namespace ConfigExpr

open Grammar

/-- A property of tokens and one of expressions apart from their parts. -/
structure TreeProperty where
  token : Token → Prop
  expr : Expr → Prop
  code : ∀ {parts tokens us}, token (.string parts) → .code tokens ∈ parts →
    tokens.map (·.token) = us ++ [.eof] → ∀ t ∈ us, token t
  letIn : ∀ {bindings body}, bindings ≠ [] → (∀ b ∈ bindings, token (.ident b.name.text)) →
    expr (.letIn bindings body .nowhere)
  lambda : ∀ {names : List String} {body}, names.Nodup → (∀ name ∈ names, token (.ident name)) →
    expr (.lambda (names.map .of) body .nowhere)
  int : ∀ v, expr (.int v .nowhere)
  float : ∀ {v}, token (.float v) → expr (.float v .nowhere)
  bool : ∀ v, expr (.bool v .nowhere)
  name : ∀ {text}, token (.ident text) → expr (.name (.of text))
  template : ∀ {parts segments}, token (.string parts) → Segments parts segments →
    expr (.template segments .nowhere)
  list : ∀ items, expr (.list items .nowhere)
  map : ∀ entries, expr (.map entries .nowhere)
  member : ∀ {receiver name}, token (.ident name) → expr (.member receiver (.of name) .nowhere)
  method : ∀ {receiver name arguments}, token (.ident name) →
    expr (.method receiver (.of name) arguments .nowhere)
  index : ∀ receiver key, expr (.index receiver key .nowhere)
  apply : ∀ callee arguments, expr (.apply callee arguments .nowhere)

namespace Grammar

theorem mem_nameTokens {name : String} :
    ∀ {names : List String}, name ∈ names → .ident name ∈ nameTokens names
  | [_], h => by
    obtain rfl := List.mem_singleton.1 h
    exact List.mem_singleton.2 rfl
  | _ :: name' :: names, h => by
    rcases List.mem_cons.1 h with rfl | h
    · exact List.mem_cons_self
    · exact List.mem_cons_of_mem _ (List.mem_cons_of_mem _ (mem_nameTokens h))

variable {P : TreeProperty}

mutual

/-- The property holds of the tree and its parts if it holds of the tokens. -/
theorem Expression.everywhere : ∀ {us : List Token} {e : Expr}, Expression us e →
    (∀ t ∈ us, P.token t) → e.Everywhere P.expr
  | _, _, .letIn hne hbs he, h => by
    have hb := hbs.everywhere fun t ht => h t (by simp [ht])
    have hbody := he.everywhere fun t ht => h t (by simp [ht])
    refine .intro (P.letIn hne fun b hmem => (hb b hmem).1) fun x hx => ?_
    rcases List.mem_append.1 hx with hx | hx
    · obtain ⟨b, hmem, rfl⟩ := List.mem_map.1 hx
      exact (hb b hmem).2
    · rw [List.mem_singleton.1 hx]
      exact hbody
  | _, _, .lambda names hnames he, h => by
    have hbody := he.everywhere fun t ht => h t (by simp [ht])
    refine .intro (P.lambda hnames fun name hname => ?_) fun x hx => ?_
    · exact h (.ident name) (by simp [mem_nameTokens hname])
    · rw [List.mem_singleton.1 hx]
      exact hbody
  | _, _, .chain hp ho, h =>
    ho.everywhere (hp.everywhere fun t ht => h t (by simp [ht])) fun t ht => h t (by simp [ht])

theorem Primary.everywhere : ∀ {us : List Token} {p : Expr}, Primary us p →
    (∀ t ∈ us, P.token t) → p.Everywhere P.expr
  | _, _, .int v, _ => .intro (P.int v) nofun
  | _, _, .float v, h => .intro (P.float (h (.float v) (by simp))) nofun
  | _, _, .trueWord, _ => .intro (P.bool true) nofun
  | _, _, .falseWord, _ => .intro (P.bool false) nofun
  | _, _, .name text, h => .intro (P.name (h (.ident text) (by simp))) nofun
  | _, _, .string parts hs, h => by
    have hstring := h (.string parts) (by simp)
    have hcode := hs.everywhere fun tokens us => P.code hstring
    refine .intro (P.template hstring hs) fun x hx => ?_
    obtain ⟨s, hs, hx⟩ := List.mem_filterMap.1 hx
    cases s with
    | text => cases hx
    | code e =>
      cases hx
      exact hcode _ hs
  | _, _, .list ha, h => .intro (P.list _) (ha.everywhere fun t ht => h t (by simp [ht]))
  | _, _, .map hes, h =>
    .intro (P.map _) (List.forall_mem_map.2 (hes.everywhere fun t ht => h t (by simp [ht])))
  | _, _, .group he, h => he.everywhere fun t ht => h t (by simp [ht])

theorem Operators.everywhere : ∀ {us : List Token} {p e : Expr}, Operators p us e →
    p.Everywhere P.expr → (∀ t ∈ us, P.token t) → e.Everywhere P.expr
  | _, _, _, .none _, hp, _ => hp
  | _, _, _, .member name _ ho, hp, h => by
    have hname := h (.ident name) (by simp)
    exact ho.everywhere (.intro (P.member hname) (List.forall_mem_singleton.2 hp))
      fun t ht => h t (by simp [ht])
  | _, _, _, .method name ha ho, hp, h => by
    have hname := h (.ident name) (by simp)
    have hargs := ha.everywhere fun t ht => h t (by simp [ht])
    exact ho.everywhere (.intro (P.method hname) (List.forall_mem_cons.2 ⟨hp, hargs⟩))
      fun t ht => h t (by simp [ht])
  | _, _, _, .index hk ho, hp, h => by
    have hkey := hk.everywhere fun t ht => h t (by simp [ht])
    have hparts := List.forall_mem_cons.2 ⟨hp, List.forall_mem_singleton.2 hkey⟩
    exact ho.everywhere (.intro (P.index _ _) hparts) fun t ht => h t (by simp [ht])
  | _, _, _, .apply ha ho, hp, h => by
    have hargs := ha.everywhere fun t ht => h t (by simp [ht])
    exact ho.everywhere (.intro (P.apply _ _) (List.forall_mem_cons.2 ⟨hp, hargs⟩))
      fun t ht => h t (by simp [ht])

theorem Arguments.everywhere : ∀ {us : List Token} {es : List Expr}, Arguments us es →
    (∀ t ∈ us, P.token t) → ∀ e ∈ es, e.Everywhere P.expr
  | _, _, .none, _ => nofun
  | _, _, .last he, h => List.forall_mem_singleton.2 (he.everywhere h)
  | _, _, .more he ha, h => by
    have hfirst := he.everywhere fun t ht => h t (by simp [ht])
    have hothers := ha.everywhere fun t ht => h t (by simp [ht])
    exact List.forall_mem_cons.2 ⟨hfirst, hothers⟩

theorem Bindings.everywhere : ∀ {us : List Token} {bs : List Binding}, Bindings us bs →
    (∀ t ∈ us, P.token t) →
      ∀ b ∈ bs, P.token (.ident b.name.text) ∧ b.value.Everywhere P.expr
  | _, _, .none, _ => nofun
  | _, _, .more name he hbs, h => by
    have hname := h (.ident name) (by simp)
    have hvalue := he.everywhere fun t ht => h t (by simp [ht])
    have hothers := hbs.everywhere fun t ht => h t (by simp [ht])
    exact List.forall_mem_cons.2 ⟨⟨hname, hvalue⟩, hothers⟩

theorem Entries.everywhere : ∀ {us : List Token} {es : List Entry}, Entries us es →
    (∀ t ∈ us, P.token t) → ∀ e ∈ es, e.value.Everywhere P.expr
  | _, _, .none, _ => nofun
  | _, _, .more _ he _ hes, h => by
    have hvalue := he.everywhere fun t ht => h t (by simp [ht])
    have hothers := hes.everywhere fun t ht => h t (by simp [ht])
    exact List.forall_mem_cons.2 ⟨hvalue, hothers⟩

theorem Segments.everywhere : ∀ {ps : List StringPart} {ss : List Segment}, Segments ps ss →
    (∀ tokens us, .code tokens ∈ ps → tokens.map (·.token) = us ++ [.eof] →
      ∀ t ∈ us, P.token t) → ∀ e, .code e ∈ ss → e.Everywhere P.expr
  | _, _, .none, _ => nofun
  | _, _, .text hs, h => by
    have hcode := hs.everywhere fun tokens us ht => h tokens us (List.mem_cons_of_mem _ ht)
    exact fun e he => hcode e (by simpa using he)
  | _, _, .code htokens he hs, h => by
    have hexpr := he.everywhere (h _ _ List.mem_cons_self htokens)
    have hcode := hs.everywhere fun tokens us ht => h tokens us (List.mem_cons_of_mem _ ht)
    intro e he
    rcases List.mem_cons.1 he with heq | he
    · cases heq
      exact hexpr
    · exact hcode e he

end

end Grammar

end ConfigExpr
