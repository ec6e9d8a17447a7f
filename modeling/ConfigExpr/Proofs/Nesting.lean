import ConfigExpr.Proofs.ErrorPlaces
import Mathlib.Data.List.Pairwise

/-!
# Nested nodes

Each node of a parsed program marks a text of the source that is not empty, and the names, keys and
expressions directly in it mark texts inside that one, none of which overlap
(`Program.nested_of_parse`). So of two nodes at any depth one stands in the other, or they are
apart (`Program.laminar_of_parse`).
-/

namespace ConfigExpr

namespace Span

/-- The first span lies in the second. -/
def Inside (s t : Span) : Prop :=
  t.start ≤ s.start ∧ s.stop ≤ t.stop

/-- The spans have no place in common. -/
def Apart (s t : Span) : Prop :=
  s.stop ≤ t.start ∨ t.stop ≤ s.start

theorem Inside.trans {r s t : Span} (h : r.Inside s) (h' : s.Inside t) : r.Inside t :=
  ⟨Nat.le_trans h'.1 h.1, Nat.le_trans h.2 h'.2⟩

theorem Apart.symm {s t : Span} (h : s.Apart t) : t.Apart s :=
  Or.symm h

theorem Apart.of_inside {s s' t t' : Span} (h : s.Apart t) (hs : s'.Inside s) (ht : t'.Inside t) :
    s'.Apart t' :=
  h.imp (fun h => Nat.le_trans hs.2 (Nat.le_trans h ht.1))
    fun h => Nat.le_trans ht.2 (Nat.le_trans h hs.1)

theorem Row.inside {source : List Char} {t : Span} {ss : List Span}
    (h : Row source t.start t.stop ss) : ∀ s ∈ ss, s.Inside t :=
  fun s hs => ⟨h.chain.le_start s hs, h.chain.stop_le s hs⟩

end Span

/-! ## Nodes at any depth -/

theorem Binding.sublist_places (bs : List Binding) :
    ((bs.map (·.value)).map Expr.span).Sublist (bs.flatMap places) := by
  induction bs with
  | nil => exact .slnil
  | cons b bs ih => exact .cons _ (.cons_cons _ ih)

theorem Entry.sublist_places (es : List Entry) :
    ((es.map (·.value)).map Expr.span).Sublist (es.flatMap places) := by
  induction es with
  | nil => exact .slnil
  | cons e es ih => exact .cons _ (.cons_cons _ ih)

namespace Expr

/-- The second expression is the first, or in it at any depth. -/
inductive HasNode : Expr → Expr → Prop where
  | self (e : Expr) : HasNode e e
  | part {e x y : Expr} : x ∈ e.parts → HasNode x y → HasNode e y

variable {source : List Char} {e x y : Expr}

theorem sublist_places (e : Expr) : (e.parts.map span).Sublist e.places := by
  cases e with
  | letIn bindings body s =>
    simp only [parts, places, List.map_append, List.map_cons, List.map_nil]
    exact (Binding.sublist_places bindings).append (.refl _)
  | map entries s => exact Entry.sublist_places entries
  | lambda parameters body s => exact List.sublist_append_right _ _
  | member receiver n s => exact .cons_cons _ (.cons _ .slnil)
  | method receiver n arguments s => exact .cons_cons _ (.cons _ (.refl _))
  | _ => exact .refl _

theorem HasNode.inside (h : e.HasNode x) (he : e.Everywhere (Placed source)) :
    x.span.Inside e.span := by
  induction h with
  | self e => exact ⟨Nat.le_refl _, Nat.le_refl _⟩
  | part hx _ ih =>
    have hplace := (sublist_places _).subset (List.mem_map_of_mem hx)
    exact (ih (he.part hx)).trans (he.self.row.inside _ hplace)

theorem Placed.apart (h : e.Placed source) (hx : x ∈ e.parts) (hy : y ∈ e.parts) (hne : x ≠ y) :
    x.span.Apart y.span := by
  have hpairwise := h.row.chain.pairwise.sublist (sublist_places e)
  rw [List.pairwise_map] at hpairwise
  have hsymm : Std.Symm fun x y : Expr => x.span.Apart y.span := ⟨fun _ _ => Span.Apart.symm⟩
  have hapart : e.parts.Pairwise fun x y => x.span.Apart y.span := hpairwise.imp Or.inl
  exact hapart.forall hx hy hne

theorem HasNode.laminar (hx : e.HasNode x) (hy : e.HasNode y)
    (he : e.Everywhere (Placed source)) :
    x.span.Inside y.span ∨ y.span.Inside x.span ∨ x.span.Apart y.span := by
  induction hx with
  | self e => exact .inr (.inl (hy.inside he))
  | @part e x' x hpart hx ih =>
    cases hy with
    | self => exact .inl ((HasNode.part hpart hx).inside he)
    | @part _ y' _ hpart' hy =>
      by_cases heq : x' = y'
      · subst heq
        exact ih hy (he.part hpart)
      · have hapart := he.self.apart hpart hpart' heq
        exact .inr (.inr (hapart.of_inside (hx.inside (he.part hpart))
          (hy.inside (he.part hpart'))))

end Expr

namespace Program

variable {source : String} {p : Program}

/-- Every node has a place that is not empty and lies in the source on boundaries of characters. The
names, keys and expressions directly in it stand in that place, each before the next. -/
theorem nested_of_parse (h : parse source = .ok p) :
    p.expression.Everywhere fun e =>
      e.span.Within source.toList ∧ e.span.start < e.span.stop ∧
      (∀ s ∈ e.places, s.Within source.toList ∧ s.Inside e.span) ∧
      e.places.Pairwise fun s t => s.stop ≤ t.start := by
  have hplaced := parse_placed source
  rw [h] at hplaced
  cases hplaced with
  | ok hp =>
    refine hp.imp fun e he => ⟨he.within, he.start_lt_stop, fun s hs => ?_, he.row.chain.pairwise⟩
    exact ⟨he.row.within s hs, he.row.inside s hs⟩

/-- Of two nodes at any depth one stands in the other, or they are apart. -/
theorem laminar_of_parse (h : parse source = .ok p) {x y : Expr} (hx : p.expression.HasNode x)
    (hy : p.expression.HasNode y) :
    x.span.Inside y.span ∨ y.span.Inside x.span ∨ x.span.Apart y.span := by
  have hplaced := parse_placed source
  rw [h] at hplaced
  cases hplaced with
  | ok hp => exact hx.laminar hy hp

/-- Parentheses stand around a callee, which the call begins with, and around the code in a string
after a character of two bytes. -/
theorem nested_of_parse_call :
    let source := "[(x)(\"é$\x7b(y)\x7d\")]"
    ∃ p, parse source = .ok p ∧ p.expression.places = [⟨2, 16⟩] ∧
      p.expression.Everywhere fun e =>
        e.span.Within source.toList ∧ e.span.start < e.span.stop ∧
        (∀ s ∈ e.places, s.Within source.toList ∧ s.Inside e.span) ∧
        e.places.Pairwise fun s t => s.stop ≤ t.start := by
  intro source
  let text : Expr := .template [.text "é", .code (.name ⟨"y", ⟨11, 12⟩⟩)] ⟨5, 15⟩
  let call : Expr := .apply (.name ⟨"x", ⟨2, 3⟩⟩) [text] ⟨2, 16⟩
  have hparse : parse source = .ok ⟨.list [call] ⟨0, 17⟩, []⟩ := by cbv
  exact ⟨_, hparse, rfl, nested_of_parse hparse⟩

end Program

end ConfigExpr
