import ConfigExpr.Proofs.Derived
import ConfigExpr.Proofs.Proper

/-!
# The form of parsed expressions

What proper tokens derive is formed everywhere: its names are names, a `let` binds some, the
parameters of a lambda are distinct, and no text of a string is empty or next to another.
-/

namespace ConfigExpr

def Segment.isText : Segment → Bool
  | .text _ => true
  | .code _ => false

/-- No text is empty or next to another. -/
def Segment.Cut : List Segment → Prop
  | [] => True
  | s :: ss => s ≠ .text "" ∧ (s.isText → ¬ ss.head?.any isText) ∧ Cut ss

/-- The form of an expression apart from its parts. -/
def Expr.Formed : Expr → Prop
  | .template segments _ => Segment.Cut segments
  | .name n => isBareKey n.text = true
  | .letIn bindings _ _ => bindings ≠ [] ∧ ∀ b ∈ bindings, isBareKey b.name.text = true
  | .lambda parameters _ _ =>
    (parameters.map (·.text)).Nodup ∧ ∀ n ∈ parameters, isBareKey n.text = true
  | .member _ n _ | .method _ n _ _ => isBareKey n.text = true
  | _ => True

namespace Grammar

theorem Segments.isText_head {ps : List StringPart} {ss : List Segment} (h : Segments ps ss) :
    ss.head?.any Segment.isText = ps.head?.any StringPart.isText := by
  cases h <;> rfl

theorem Segments.cut : ∀ {ps : List StringPart} {ss : List Segment}, Segments ps ss →
    StringPart.ProperAll ps → Segment.Cut ss
  | _, _, .none, _ => trivial
  | _, _, .text hs, h => by
    refine ⟨?_, ?_, hs.cut h.2.2⟩
    · intro heq
      cases heq
      exact h.1 rfl
    · rw [hs.isText_head]
      exact h.2.1
  | _, _, .code _ _ hs, h => ⟨nofun, nofun, hs.cut h.2.2⟩

theorem proper_of_ended {tokens : List Spanned} {us : List Token} (h : Spanned.Ended tokens)
    (hus : tokens.map (·.token) = us ++ [.eof]) : ∀ t ∈ us, t.Proper := by
  obtain ⟨body, z, rfl, hz, hbody⟩ := Spanned.ended_iff.1 h
  have hmap : body.map (·.token) = us := by simpa [hz] using hus
  rw [← hmap]
  exact List.forall_mem_map.2 hbody

end Grammar

open Grammar

def TreeProperty.formed : TreeProperty where
  token := Token.Proper
  expr := Expr.Formed
  code hproper hcode := proper_of_ended (Spanned.ended_of_properAll hproper hcode)
  letIn hne hbs := ⟨hne, hbs⟩
  lambda hnames hproper :=
    ⟨by simpa [Function.comp_def] using hnames, List.forall_mem_map.2 hproper⟩
  int _ := trivial
  float _ := trivial
  bool _ := trivial
  name hproper := hproper
  template hproper hs := hs.cut hproper
  list _ := trivial
  map _ := trivial
  member hproper := hproper
  method hproper := hproper
  index _ _ := trivial
  apply _ _ := trivial

end ConfigExpr
