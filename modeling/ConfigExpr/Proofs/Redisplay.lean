import ConfigExpr.Proofs.Reparse

/-!
# Displaying again

The text of an expression does not depend on positions (`Expr.render_mapSpans`). So although the
text of a parsed expression may parse to another tree, where the parentheses it leaves out held a
receiver or a callee together, that tree is displayed as the same text (`Program.toString_reparse`).
-/

namespace ConfigExpr

section

variable (f : Span → Span)

theorem Name.renderAll_mapSpan (names : List Name) :
    Name.renderAll (names.map (·.mapSpan f)) = Name.renderAll names := by
  rw [renderAll, List.map_map]
  rfl

mutual

theorem Expr.render_mapSpans : ∀ e : Expr, (e.mapSpans f).render = e.render
  | .template segments s => by
    simp only [Expr.mapSpans, Expr.render, Segment.render_mapSpansAll segments]
  | .letIn bindings body s => by
    simp only [Expr.mapSpans, Expr.render, Binding.render_mapSpansAll bindings,
      Expr.render_mapSpans body]
  | .lambda parameters body s => by
    simp only [Expr.mapSpans, Expr.render, Name.renderAll_mapSpan, Expr.render_mapSpans body]
  | .apply callee arguments s => by
    simp only [Expr.mapSpans, Expr.render, Expr.render_mapSpans callee,
      Expr.render_mapSpansAll arguments]
  | .map entries s => by simp only [Expr.mapSpans, Expr.render, Entry.render_mapSpansAll entries]
  | .list items s => by simp only [Expr.mapSpans, Expr.render, Expr.render_mapSpansAll items]
  | .member receiver n s => by
    simp only [Expr.mapSpans, Expr.render, Name.mapSpan, Expr.render_mapSpans receiver]
  | .method receiver n arguments s => by
    simp only [Expr.mapSpans, Expr.render, Name.mapSpan, Expr.render_mapSpans receiver,
      Expr.render_mapSpansAll arguments]
  | .index receiver key s => by
    simp only [Expr.mapSpans, Expr.render, Expr.render_mapSpans receiver,
      Expr.render_mapSpans key]
  | .int .. | .float .. | .bool .. | .name .. => rfl

theorem Expr.render_mapSpansAll :
    ∀ es : List Expr, Expr.renderAll (Expr.mapSpansAll f es) = Expr.renderAll es
  | [] => rfl
  | e :: es => by
    simp only [Expr.mapSpansAll, Expr.renderAll, Expr.render_mapSpans e,
      Expr.render_mapSpansAll es]

theorem Segment.render_mapSpansAll :
    ∀ ss : List Segment, Segment.renderAll (Segment.mapSpansAll f ss) = Segment.renderAll ss
  | [] => rfl
  | .text s :: ss => by
    simp only [Segment.mapSpansAll, Segment.mapSpans, Segment.renderAll,
      Segment.render_mapSpansAll ss]
  | .code e :: ss => by
    simp only [Segment.mapSpansAll, Segment.mapSpans, Segment.renderAll, Segment.render,
      Expr.render_mapSpans e, Segment.render_mapSpansAll ss]

theorem Binding.render_mapSpansAll :
    ∀ bs : List Binding, Binding.renderAll (Binding.mapSpansAll f bs) = Binding.renderAll bs
  | [] => rfl
  | ⟨n, e⟩ :: bs => by
    simp only [Binding.mapSpansAll, Binding.mapSpans, Binding.renderAll, Binding.render,
      Name.mapSpan, Expr.render_mapSpans e, Binding.render_mapSpansAll bs]

theorem Entry.render_mapSpansAll :
    ∀ es : List Entry, Entry.renderAll (Entry.mapSpansAll f es) = Entry.renderAll es
  | [] => rfl
  | ⟨n, e⟩ :: es => by
    simp only [Entry.mapSpansAll, Entry.mapSpans, Entry.renderAll, Entry.render,
      Name.mapSpan, Expr.render_mapSpans e, Entry.render_mapSpansAll es]

end

end

theorem Expr.Alike.toString_eq {a b : Expr} (h : a.Alike b) : toString a = toString b := by
  have hrender : a.unplaced.render = b.unplaced.render := congrArg Expr.render h
  rw [unplaced, unplaced, render_mapSpans, render_mapSpans] at hrender
  exact congrArg String.ofList hrender

/-- The text of a parsed expression parses to an expression with the same text. -/
theorem Program.toString_reparse {source : String} {p : Program} (h : parse source = .ok p)
    (hfloats : p.expression.Everywhere Expr.ReadsBack) :
    ∃ q, parse (toString p.expression) = .ok q ∧
      toString q.expression = toString p.expression := by
  obtain ⟨q, hq, halike⟩ := exists_parse_toString h hfloats
  have htext : toString p.expression.regroup = toString p.expression :=
    congrArg String.ofList p.expression.render_regroup
  exact ⟨q, hq, halike.toString_eq.trans htext⟩

/-- The call and the index move into the body of the lambda, and there the call of the field becomes
the call of a method. -/
theorem Program.toString_reparse_moved :
    ∃ p, parse "((x) => m.f)(1)[k]" = .ok p ∧ p.expression.Everywhere Expr.ReadsBack ∧
      ∃ q, parse (toString p.expression) = .ok q ∧
        toString q.expression = toString p.expression := by
  let field : Expr := .member (.name ⟨"m", ⟨8, 9⟩⟩) ⟨"f", ⟨10, 11⟩⟩ ⟨8, 11⟩
  let call : Expr := .apply (.lambda [⟨"x", ⟨2, 3⟩⟩] field ⟨1, 11⟩) [.int 1 ⟨13, 14⟩] ⟨1, 15⟩
  have hparse : parse "((x) => m.f)(1)[k]" =
      .ok ⟨.index call (.name ⟨"k", ⟨16, 17⟩⟩) ⟨1, 18⟩, []⟩ := by cbv
  have hname : ∀ n, (Expr.name n).Everywhere Expr.ReadsBack := fun n =>
    .intro trivial (List.forall_mem_nil _)
  have hint : ∀ v s, (Expr.int v s).Everywhere Expr.ReadsBack := fun v s =>
    .intro trivial (List.forall_mem_nil _)
  have hfield : field.Everywhere Expr.ReadsBack :=
    .intro trivial (by simp [field, Expr.parts, hname])
  have hlambda : (Expr.lambda [⟨"x", ⟨2, 3⟩⟩] field ⟨1, 11⟩).Everywhere Expr.ReadsBack :=
    .intro trivial (by simpa [Expr.parts] using hfield)
  have hcall : call.Everywhere Expr.ReadsBack :=
    .intro trivial (by simpa [call, Expr.parts, hint] using hlambda)
  have hfloats : (Expr.index call (.name ⟨"k", ⟨16, 17⟩⟩) ⟨1, 18⟩).Everywhere Expr.ReadsBack :=
    .intro trivial (by simpa [Expr.parts, hname] using hcall)
  exact ⟨_, hparse, hfloats, toString_reparse hparse hfloats⟩

end ConfigExpr
