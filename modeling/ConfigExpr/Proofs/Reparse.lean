import ConfigExpr.Proofs.Accepts
import ConfigExpr.Proofs.Regroup

/-!
# Parsing what is displayed

The text of an expression parses to what the expression is without its parentheses
(`Program.exists_parse_toString`), so to the expression itself exactly where it needs none.
-/

namespace ConfigExpr

open Grammar

namespace Expr

@[simp] theorem isOpenEnded_unplaced (e : Expr) : e.unplaced.isOpenEnded = e.isOpenEnded := by
  cases e <;> simp [isOpenEnded]

@[simp] theorem isMember_unplaced (e : Expr) : e.unplaced.isMember = e.isMember := by
  cases e <;> simp [isMember]

theorem needsGroup_unplaced (e : Expr) : e.unplaced.needsGroup = e.needsGroup := by
  cases e <;> simp [needsGroup]

theorem cut_map_unplaced : ∀ ss : List Segment,
    Segment.Cut (ss.map Segment.unplaced) ↔ Segment.Cut ss
  | [] => Iff.rfl
  | s :: ss => by
    have hhead : (ss.map Segment.unplaced).head?.any Segment.isText =
        ss.head?.any Segment.isText := by
      rcases ss with _ | ⟨_ | _, _⟩ <;> rfl
    rw [List.map_cons, Segment.Cut, Segment.Cut, cut_map_unplaced ss, hhead]
    cases s <;> simp [Segment.isText]

theorem formed_unplaced (e : Expr) : e.unplaced.Formed ↔ e.Formed := by
  cases e with
  | template segments s =>
    rw [unplaced_template]
    exact cut_map_unplaced segments
  | _ => simp [Formed, Function.comp_def]

theorem readsBack_unplaced (e : Expr) : e.unplaced.ReadsBack ↔ e.ReadsBack := by
  cases e <;> simp [ReadsBack]

end Expr

/-- The text of an expression that needs no parentheses parses to the expression. -/
theorem Program.exists_parse_of_plain {e : Expr} (h : e.Everywhere Expr.Plain) :
    ∃ p, parse (toString e) = .ok p ∧ p.expression.Alike e := by
  obtain ⟨m, us, hreads, hderives⟩ := Expr.spells_render h ends_nil 0
  rw [List.append_nil] at hreads
  obtain ⟨herror, htokens, hkept⟩ := hreads.tokens rfl
  rw [← hkept] at htokens
  have hstart : Tokens.ofText (toString e) = (Cursor.mk 0 e.render).tokens := by
    show (Cursor.start (String.ofList e.render).toList).tokens = _
    rw [String.toList_ofList]
    rfl
  rw [← hstart] at herror htokens
  obtain ⟨e', rest, hrest, heq⟩ :=
    (parseWhole_iff_derives (Cursor.ended_withoutComments herror) htokens).2 hderives.1
  obtain ⟨p, hp, rfl⟩ := exists_parse_iff.2 ⟨rest, hrest⟩
  exact ⟨p, hp, heq⟩

theorem Program.formed_of_parse {source : String} {p : Program} (h : parse source = .ok p) :
    p.expression.Everywhere Expr.Formed :=
  everywhere_of_parse h .formed Expr.formed_unplaced fun _ _ => id

/-- The text of a parsed expression parses to what the expression is without its parentheses. -/
theorem Program.exists_parse_toString {source : String} {p : Program} (h : parse source = .ok p)
    (hfloats : p.expression.Everywhere Expr.ReadsBack) :
    ∃ q, parse (toString p.expression) = .ok q ∧ q.expression.Alike p.expression.regroup := by
  have hplain := Expr.everywhere_regroup (Expr.everywhere_and.2 ⟨formed_of_parse h, hfloats⟩)
  have htext : toString p.expression.regroup = toString p.expression :=
    congrArg String.ofList p.expression.render_regroup
  rw [← htext]
  exact exists_parse_of_plain hplain

/-- Display and parsing are inverse where no parentheses are needed, and nowhere else. -/
theorem Program.reparse_alike_iff {source : String} {p : Program} (h : parse source = .ok p)
    (hfloats : p.expression.Everywhere Expr.ReadsBack) :
    (∃ q, parse (toString p.expression) = .ok q ∧ q.expression.Alike p.expression) ↔
      p.expression.Everywhere fun e => e.needsGroup = false := by
  have hgroup : ∀ x : Expr, x.unplaced.needsGroup = false ↔ x.needsGroup = false := by
    intro x
    rw [x.needsGroup_unplaced]
  obtain ⟨q, hq, hregroup⟩ := exists_parse_toString h hfloats
  constructor
  · rintro ⟨q', hq', halike⟩
    cases hq.symm.trans hq'
    have hplain := Expr.everywhere_regroup (Expr.everywhere_and.2 ⟨formed_of_parse h, hfloats⟩)
    have hnone := (Expr.everywhere_unplaced hgroup).2 (hplain.imp fun x hx => hx.2.2)
    rw [← hregroup, halike] at hnone
    exact (Expr.everywhere_unplaced hgroup).1 hnone
  · intro hnone
    rw [Expr.regroup_eq_self hnone] at hregroup
    exact ⟨q, hq, hregroup⟩

theorem Program.reparse_alike_iff_call :
    (∃ p, parse "(m.f)(1)" = .ok p ∧
      ¬ ∃ q, parse (toString p.expression) = .ok q ∧ q.expression.Alike p.expression) ∧
    ∃ p, parse "f(1.5)" = .ok p ∧
      ∃ q, parse (toString p.expression) = .ok q ∧ q.expression.Alike p.expression := by
  constructor
  · let callee : Expr := .member (.name ⟨"m", ⟨1, 2⟩⟩) ⟨"f", ⟨3, 4⟩⟩ ⟨1, 4⟩
    have hparse : parse "(m.f)(1)" = .ok ⟨.apply callee [.int 1 ⟨6, 7⟩] ⟨1, 8⟩, []⟩ := by cbv
    refine ⟨_, hparse, fun hq => ?_⟩
    have hcallee : callee.Everywhere Expr.ReadsBack :=
      .intro trivial fun y hy => by
        rw [List.mem_singleton.1 hy]
        exact .intro trivial (List.forall_mem_nil _)
    have hfloats : (Expr.apply callee [.int 1 ⟨6, 7⟩] ⟨1, 8⟩).Everywhere Expr.ReadsBack := by
      refine .intro trivial fun y hy => ?_
      rcases List.mem_cons.1 hy with rfl | hy
      · exact hcallee
      · rw [List.mem_singleton.1 hy]
        exact .intro trivial (List.forall_mem_nil _)
    have hnone := (reparse_alike_iff hparse hfloats).1 hq
    cases hnone.self
  · let x := Binary64.ofDigits false ['1'] ['5']
    have hwrite : Binary64.Layout.literal.write x = ['1', '.', '5'] := by decide +kernel
    have hx : x.ReadsBack :=
      ⟨[], ['1'], ['5'], hwrite, .inl rfl, by simp, by simp, List.all_eq_true.1 rfl, rfl⟩
    let e : Expr := .apply (.name (.of "f")) [.float x .nowhere] .nowhere
    have hplain : e.Everywhere Expr.Plain := by
      refine .intro ⟨trivial, trivial, rfl⟩ fun y hy => ?_
      rcases List.mem_cons.1 hy with rfl | hy
      · exact .intro ⟨by show isBareKey "f" = true; decide +kernel, trivial, rfl⟩
          (List.forall_mem_nil _)
      · rw [List.mem_singleton.1 hy]
        exact .intro ⟨trivial, hx, rfl⟩ (List.forall_mem_nil _)
    have htext : toString e = "f(1.5)" := by
      have hargument : (Expr.float x .nowhere).render = ['1', '.', '5'] := hwrite
      show String.ofList ("f".toList ++ '(' :: commaSeparated [(Expr.float x .nowhere).render] ++
        [')']) = _
      rw [hargument]
      rfl
    obtain ⟨p, hp, halike⟩ := exists_parse_of_plain hplain
    have hplace : ∀ {r : Expr → Prop}, (∀ y : Expr, r y.unplaced ↔ r y) → e.Everywhere r →
        p.expression.Everywhere r := by
      intro r hr h
      rw [← Expr.everywhere_unplaced hr] at h ⊢
      rwa [halike]
    rw [htext] at hp
    have hfloats := hplace Expr.readsBack_unplaced (hplain.imp fun y hy => hy.2.1)
    have hnone := hplace (fun y => by rw [y.needsGroup_unplaced]) (hplain.imp fun y hy => hy.2.2)
    exact ⟨p, hp, (reparse_alike_iff hp hfloats).2 hnone⟩

end ConfigExpr
