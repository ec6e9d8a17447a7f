import ConfigExpr.Proofs.Written

/-!
# Expressions without their parentheses

What an expression becomes when the parentheses around its receivers and callees are left out: what
follows a `let` or a lambda goes into its body, and the call of a field is the call of a method.
`Expr.regroup` has the text of the expression it is made from and needs no parentheses; an
expression that needs none stays as it is.
-/

namespace ConfigExpr

/-- What can follow an operand, with the span of the whole. -/
inductive Suffix where
  | member (name : Name) (span : Span)
  | method (name : Name) (arguments : List Expr) (span : Span)
  | index (key : Expr) (span : Span)
  | apply (arguments : List Expr) (span : Span)

namespace Suffix

def on (e : Expr) : Suffix → Expr
  | .member n s => .member e n s
  | .method n arguments s => .method e n arguments s
  | .index key s => .index e key s
  | .apply arguments s => .apply e arguments s

def onMember (receiver : Expr) (n : Name) (s : Span) : Suffix → Expr
  | .apply arguments s' => .method receiver n arguments s'
  | suffix => suffix.on (.member receiver n s)

def render : Suffix → List Char
  | .member n _ => '.' :: n.text.toList
  | .method n arguments _ =>
    '.' :: n.text.toList ++ '(' :: commaSeparated (Expr.renderAll arguments) ++ [')']
  | .index key _ => '[' :: key.render ++ [']']
  | .apply arguments _ => '(' :: commaSeparated (Expr.renderAll arguments) ++ [')']

def parts : Suffix → List Expr
  | .member _ _ => []
  | .method _ arguments _ | .apply arguments _ => arguments
  | .index key _ => [key]

def Formed : Suffix → Prop
  | .member n _ | .method n _ _ => isBareKey n.text = true
  | _ => True

def isApply : Suffix → Bool
  | .apply .. => true
  | _ => false

end Suffix

/-- Puts a suffix where it goes when it is written after an expression. -/
def Expr.attach (suffix : Suffix) : Expr → Expr
  | .letIn bindings body s => .letIn bindings (body.attach suffix) s
  | .lambda parameters body s => .lambda parameters (body.attach suffix) s
  | .member receiver n s => suffix.onMember receiver n s
  | e => suffix.on e

mutual

def Expr.regroup : Expr → Expr
  | .template segments s => .template (Segment.regroupAll segments) s
  | .letIn bindings body s => .letIn (Binding.regroupAll bindings) body.regroup s
  | .lambda parameters body s => .lambda parameters body.regroup s
  | .apply callee arguments s => callee.regroup.attach (.apply (Expr.regroupAll arguments) s)
  | .map entries s => .map (Entry.regroupAll entries) s
  | .list items s => .list (Expr.regroupAll items) s
  | .member receiver n s => receiver.regroup.attach (.member n s)
  | .method receiver n arguments s =>
    receiver.regroup.attach (.method n (Expr.regroupAll arguments) s)
  | .index receiver key s => receiver.regroup.attach (.index key.regroup s)
  | e => e
termination_by structural e => e

def Expr.regroupAll : List Expr → List Expr
  | [] => []
  | e :: es => e.regroup :: Expr.regroupAll es
termination_by structural es => es

def Segment.regroup : Segment → Segment
  | .text s => .text s
  | .code e => .code e.regroup
termination_by structural s => s

def Segment.regroupAll : List Segment → List Segment
  | [] => []
  | s :: ss => s.regroup :: Segment.regroupAll ss
termination_by structural ss => ss

def Binding.regroup : Binding → Binding
  | ⟨n, e⟩ => ⟨n, e.regroup⟩
termination_by structural b => b

def Binding.regroupAll : List Binding → List Binding
  | [] => []
  | b :: bs => b.regroup :: Binding.regroupAll bs
termination_by structural bs => bs

def Entry.regroup : Entry → Entry
  | ⟨n, e⟩ => ⟨n, e.regroup⟩
termination_by structural e => e

def Entry.regroupAll : List Entry → List Entry
  | [] => []
  | e :: es => e.regroup :: Entry.regroupAll es
termination_by structural es => es

end

/-! ## The text -/

theorem Suffix.render_on (suffix : Suffix) (e : Expr) :
    (suffix.on e).render = e.render ++ suffix.render := by
  cases suffix <;> simp [on, render, Expr.render]

theorem Suffix.render_onMember (suffix : Suffix) (receiver : Expr) (n : Name) (s : Span) :
    (suffix.onMember receiver n s).render = (Expr.member receiver n s).render ++ suffix.render := by
  cases suffix <;> simp [onMember, on, render, Expr.render]

theorem Expr.render_attach (suffix : Suffix) :
    ∀ e : Expr, (e.attach suffix).render = e.render ++ suffix.render
  | .letIn bindings body s => by simp [attach, render, render_attach suffix body]
  | .lambda parameters body s => by simp [attach, render, render_attach suffix body]
  | .member receiver n s => suffix.render_onMember receiver n s
  | .int .. | .float .. | .bool .. | .template .. | .name .. | .apply .. | .map .. | .list ..
  | .method .. | .index .. => suffix.render_on _

mutual

theorem Expr.render_regroup : ∀ e : Expr, e.regroup.render = e.render
  | .template segments s => by
    simp only [Expr.regroup, Expr.render, Segment.render_regroupAll segments]
  | .letIn bindings body s => by
    simp only [Expr.regroup, Expr.render, Binding.render_regroupAll bindings,
      Expr.render_regroup body]
  | .lambda parameters body s => by
    simp only [Expr.regroup, Expr.render, Expr.render_regroup body]
  | .apply callee arguments s => by
    simp [Expr.regroup, Expr.render, Expr.render_attach, Suffix.render,
      Expr.render_regroup callee, Expr.render_regroupAll arguments]
  | .map entries s => by simp only [Expr.regroup, Expr.render, Entry.render_regroupAll entries]
  | .list items s => by simp only [Expr.regroup, Expr.render, Expr.render_regroupAll items]
  | .member receiver n s => by
    simp [Expr.regroup, Expr.render, Expr.render_attach, Suffix.render,
      Expr.render_regroup receiver]
  | .method receiver n arguments s => by
    simp [Expr.regroup, Expr.render, Expr.render_attach, Suffix.render,
      Expr.render_regroup receiver, Expr.render_regroupAll arguments]
  | .index receiver key s => by
    simp [Expr.regroup, Expr.render, Expr.render_attach, Suffix.render,
      Expr.render_regroup receiver, Expr.render_regroup key]
  | .int .. | .float .. | .bool .. | .name .. => rfl

theorem Expr.render_regroupAll :
    ∀ es : List Expr, Expr.renderAll (Expr.regroupAll es) = Expr.renderAll es
  | [] => rfl
  | e :: es => by
    simp only [Expr.regroupAll, Expr.renderAll, Expr.render_regroup e, Expr.render_regroupAll es]

theorem Segment.render_regroupAll :
    ∀ ss : List Segment, Segment.renderAll (Segment.regroupAll ss) = Segment.renderAll ss
  | [] => rfl
  | .text s :: ss => by
    simp only [Segment.regroupAll, Segment.regroup, Segment.renderAll,
      Segment.render_regroupAll ss]
  | .code e :: ss => by
    simp only [Segment.regroupAll, Segment.regroup, Segment.renderAll, Segment.render,
      Expr.render_regroup e, Segment.render_regroupAll ss]

theorem Binding.render_regroupAll :
    ∀ bs : List Binding, Binding.renderAll (Binding.regroupAll bs) = Binding.renderAll bs
  | [] => rfl
  | ⟨n, e⟩ :: bs => by
    simp only [Binding.regroupAll, Binding.regroup, Binding.renderAll, Binding.render,
      Expr.render_regroup e, Binding.render_regroupAll bs]

theorem Entry.render_regroupAll :
    ∀ es : List Entry, Entry.renderAll (Entry.regroupAll es) = Entry.renderAll es
  | [] => rfl
  | ⟨n, e⟩ :: es => by
    simp only [Entry.regroupAll, Entry.regroup, Entry.renderAll, Entry.render,
      Expr.render_regroup e, Entry.render_regroupAll es]

end

/-! ## The form -/

theorem Expr.regroupAll_eq_map : ∀ es : List Expr, regroupAll es = es.map regroup
  | [] => rfl
  | e :: es => congrArg (e.regroup :: ·) (regroupAll_eq_map es)

theorem Segment.regroupAll_eq_map : ∀ ss : List Segment, regroupAll ss = ss.map regroup
  | [] => rfl
  | s :: ss => congrArg (s.regroup :: ·) (regroupAll_eq_map ss)

theorem Binding.regroupAll_eq_map : ∀ bs : List Binding, regroupAll bs = bs.map regroup
  | [] => rfl
  | b :: bs => congrArg (b.regroup :: ·) (regroupAll_eq_map bs)

theorem Entry.regroupAll_eq_map : ∀ es : List Entry, regroupAll es = es.map regroup
  | [] => rfl
  | e :: es => congrArg (e.regroup :: ·) (regroupAll_eq_map es)

namespace Expr

/-- A suffix can follow an operand as it is, unless it makes a method of a field. -/
theorem everywhere_on {suffix : Suffix} {e : Expr} (hs : suffix.Formed)
    (hparts : ∀ x ∈ suffix.parts, x.Everywhere Plain) (he : e.Everywhere Plain)
    (hopen : e.isOpenEnded = false) (hmember : suffix.isApply = true → e.isMember = false) :
    (suffix.on e).Everywhere Plain := by
  cases suffix with
  | member n s =>
    refine .intro ⟨hs, trivial, hopen⟩ fun x hx => ?_
    rw [List.mem_singleton.1 hx]
    exact he
  | method n arguments s =>
    refine .intro ⟨hs, trivial, hopen⟩ fun x hx => ?_
    rcases List.mem_cons.1 hx with rfl | hx
    · exact he
    · exact hparts x hx
  | index key s =>
    refine .intro ⟨trivial, trivial, hopen⟩ fun x hx => ?_
    rcases List.mem_cons.1 hx with rfl | hx
    · exact he
    · exact hparts x hx
  | apply arguments s =>
    refine .intro ⟨trivial, trivial, ?_⟩ fun x hx => ?_
    · show (e.isOpenEnded || e.isMember) = false
      rw [hopen, hmember rfl]
      rfl
    · rcases List.mem_cons.1 hx with rfl | hx
      · exact he
      · exact hparts x hx

theorem everywhere_attach (suffix : Suffix) (hs : suffix.Formed)
    (hparts : ∀ x ∈ suffix.parts, x.Everywhere Plain) :
    ∀ {e : Expr}, e.Everywhere Plain → (e.attach suffix).Everywhere Plain
  | .letIn bindings body s, he => by
    have hbody := everywhere_attach suffix hs hparts (he.part (x := body) (by simp [parts]))
    refine .intro ⟨he.self.1, trivial, rfl⟩ fun x hx => ?_
    rcases List.mem_append.1 hx with hx | hx
    · exact he.part (List.mem_append_left _ hx)
    · rw [List.mem_singleton.1 hx]
      exact hbody
  | .lambda parameters body s, he => by
    have hbody := everywhere_attach suffix hs hparts (he.part (x := body) (by simp [parts]))
    refine .intro ⟨he.self.1, trivial, rfl⟩ fun x hx => ?_
    rw [List.mem_singleton.1 hx]
    exact hbody
  | .member receiver n s, he => by
    cases suffix with
    | apply arguments s' =>
      refine .intro ⟨he.self.1, trivial, he.self.2.2⟩ fun x hx => ?_
      rcases List.mem_cons.1 hx with rfl | hx
      · exact he.part List.mem_cons_self
      · exact hparts x hx
    | member | method | index => exact everywhere_on hs hparts he rfl nofun
  | .int .., he | .float .., he | .bool .., he | .template .., he | .name .., he | .apply .., he
  | .map .., he | .list .., he | .method .., he | .index .., he =>
    everywhere_on hs hparts he rfl fun _ => rfl

theorem cut_map_regroup : ∀ {ss : List Segment}, Segment.Cut ss →
    Segment.Cut (ss.map Segment.regroup)
  | [], _ => trivial
  | s :: ss, h => by
    have hhead : (ss.map Segment.regroup).head?.any Segment.isText =
        ss.head?.any Segment.isText := by
      rcases ss with _ | ⟨_ | _, _⟩ <;> rfl
    refine ⟨?_, ?_, cut_map_regroup h.2.2⟩
    · cases s with
      | text => exact h.1
      | code => nofun
    · rw [hhead]
      cases s with
      | text => exact h.2.1
      | code => nofun

theorem filterMap_code_regroup (ss : List Segment) :
    (ss.map Segment.regroup).filterMap Segment.code? =
      (ss.filterMap Segment.code?).map regroup := by
  rw [List.filterMap_map, List.map_filterMap]
  congr 1
  funext s
  cases s <;> rfl

/-- Without its parentheses a formed expression needs none. -/
theorem everywhere_regroup {e : Expr} (h : e.Everywhere fun x => x.Formed ∧ x.ReadsBack) :
    e.regroup.Everywhere Plain := by
  induction h with
  | @intro e hself _ ih =>
    have hmap : ∀ {es : List Expr}, (∀ x ∈ es, x ∈ e.parts) →
        ∀ x ∈ es.map regroup, x.Everywhere Plain := by
      intro es hes x hx
      obtain ⟨y, hy, rfl⟩ := List.mem_map.1 hx
      exact ih y (hes y hy)
    cases e with
    | int | float | bool | name => exact .intro ⟨hself.1, hself.2, rfl⟩ nofun
    | template segments s =>
      rw [regroup, Segment.regroupAll_eq_map]
      refine .intro ⟨cut_map_regroup hself.1, trivial, rfl⟩ ?_
      rw [parts, filterMap_code_regroup]
      exact hmap fun x hx => hx
    | letIn bindings body s =>
      rw [regroup, Binding.regroupAll_eq_map]
      refine .intro ⟨⟨by simpa using hself.1.1, ?_⟩, trivial, rfl⟩ fun x hx => ?_
      · intro b hb
        obtain ⟨⟨n, v⟩, hmem, rfl⟩ := List.mem_map.1 hb
        exact hself.1.2 ⟨n, v⟩ hmem
      · rcases List.mem_append.1 hx with hx | hx
        · obtain ⟨b, hb, rfl⟩ := List.mem_map.1 hx
          obtain ⟨⟨n, v⟩, hmem, rfl⟩ := List.mem_map.1 hb
          exact ih v (List.mem_append_left _ (List.mem_map.2 ⟨⟨n, v⟩, hmem, rfl⟩))
        · rw [List.mem_singleton.1 hx]
          exact ih body (by simp [parts])
    | lambda parameters body s =>
      refine .intro ⟨hself.1, trivial, rfl⟩ fun x hx => ?_
      rw [List.mem_singleton.1 hx]
      exact ih body (by simp [parts])
    | map entries s =>
      rw [regroup, Entry.regroupAll_eq_map]
      refine .intro ⟨trivial, trivial, rfl⟩ fun x hx => ?_
      obtain ⟨b, hb, rfl⟩ := List.mem_map.1 hx
      obtain ⟨⟨n, v⟩, hmem, rfl⟩ := List.mem_map.1 hb
      exact ih v (List.mem_map.2 ⟨⟨n, v⟩, hmem, rfl⟩)
    | list items s =>
      rw [regroup, regroupAll_eq_map]
      exact .intro ⟨trivial, trivial, rfl⟩ (hmap fun x hx => hx)
    | member receiver n s =>
      exact everywhere_attach (.member n s) hself.1 nofun (ih receiver List.mem_cons_self)
    | method receiver n arguments s =>
      rw [regroup, regroupAll_eq_map]
      exact everywhere_attach (.method n (arguments.map regroup) s) hself.1
        (hmap fun x hx => List.mem_cons_of_mem receiver hx) (ih receiver List.mem_cons_self)
    | index receiver key s =>
      refine everywhere_attach (.index key.regroup s) trivial (fun x hx => ?_)
        (ih receiver List.mem_cons_self)
      rw [List.mem_singleton.1 hx]
      exact ih key (by simp [parts])
    | apply callee arguments s =>
      rw [regroup, regroupAll_eq_map]
      exact everywhere_attach (.apply (arguments.map regroup) s) trivial
        (hmap fun x hx => List.mem_cons_of_mem callee hx) (ih callee List.mem_cons_self)

theorem attach_eq_on {suffix : Suffix} {e : Expr} (hopen : e.isOpenEnded = false)
    (hmember : suffix.isApply = true → e.isMember = false) : e.attach suffix = suffix.on e := by
  cases e with
  | letIn | lambda => cases hopen
  | member receiver n s =>
    cases suffix with
    | apply => cases hmember rfl
    | member | method | index => rfl
  | _ => rfl

/-- An expression that needs no parentheses stays as it is. -/
theorem regroup_eq_self {e : Expr} (h : e.Everywhere fun x => x.needsGroup = false) :
    e.regroup = e := by
  induction h with
  | @intro e hself _ ih =>
    have hmap : ∀ es : List Expr, (∀ x ∈ es, x ∈ e.parts) → es.map regroup = es := by
      intro es hes
      exact (List.map_congr_left fun x hx => ih x (hes x hx)).trans (List.map_id es)
    cases e with
    | int | float | bool | name => rfl
    | template segments s =>
      rw [regroup, Segment.regroupAll_eq_map]
      have hsegments : ∀ s ∈ segments, s.regroup = s := by
        intro s hs
        cases s with
        | text => rfl
        | code x => rw [Segment.regroup, ih x (List.mem_filterMap.2 ⟨.code x, hs, rfl⟩)]
      rw [(List.map_congr_left hsegments).trans (List.map_id' segments)]
    | letIn bindings body s =>
      rw [regroup, Binding.regroupAll_eq_map, ih body (by simp [parts])]
      have hbindings : ∀ b ∈ bindings, b.regroup = b := by
        rintro ⟨n, v⟩ hb
        rw [Binding.regroup, ih v (List.mem_append_left _ (List.mem_map.2 ⟨⟨n, v⟩, hb, rfl⟩))]
      rw [(List.map_congr_left hbindings).trans (List.map_id' bindings)]
    | lambda parameters body s =>
      rw [regroup, ih body (by simp [parts])]
    | map entries s =>
      rw [regroup, Entry.regroupAll_eq_map]
      have hentries : ∀ b ∈ entries, b.regroup = b := by
        rintro ⟨n, v⟩ hb
        rw [Entry.regroup, ih v (List.mem_map.2 ⟨⟨n, v⟩, hb, rfl⟩)]
      rw [(List.map_congr_left hentries).trans (List.map_id' entries)]
    | list items s =>
      rw [regroup, regroupAll_eq_map, hmap items fun x hx => hx]
    | member receiver n s =>
      rw [regroup, ih receiver List.mem_cons_self, attach_eq_on hself (fun h => by cases h),
        Suffix.on]
    | method receiver n arguments s =>
      rw [regroup, regroupAll_eq_map, ih receiver List.mem_cons_self,
        attach_eq_on hself (fun h => by cases h), Suffix.on,
        hmap arguments fun x hx => List.mem_cons_of_mem receiver hx]
    | index receiver key s =>
      rw [regroup, ih receiver List.mem_cons_self, ih key (by simp [parts]),
        attach_eq_on hself (fun h => by cases h), Suffix.on]
    | apply callee arguments s =>
      simp only [needsGroup, Bool.or_eq_false_iff] at hself
      rw [regroup, regroupAll_eq_map, ih callee List.mem_cons_self,
        attach_eq_on hself.1 fun _ => hself.2, Suffix.on,
        hmap arguments fun x hx => List.mem_cons_of_mem callee hx]

end Expr

end ConfigExpr
