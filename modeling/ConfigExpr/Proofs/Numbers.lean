import ConfigExpr.Proofs.Accepts
import ConfigExpr.Proofs.Hereditary
import ConfigExpr.Proofs.Scoping
import ConfigExpr.Proofs.Tiles

/-!
# Values that are not a number

A text is never read as "not a number", and no rule of evaluation makes that value. So it is in the
value of a parsed program only if it is in an argument (`Program.notNan_of_evaluateWith`).
-/

namespace ConfigExpr

theorem Binary64.ofRatio_ne_nan (negative : Bool) (p q : Nat) : ofRatio negative p q ≠ .nan := by
  unfold ofRatio
  dsimp only
  split <;> nofun

theorem Binary64.beq_self {x : Binary64} (h : x ≠ .nan) : (x == x) = true := by
  cases x with
  | nan => exact absurd rfl h
  | _ => simp [BEq.beq, Binary64.beq]

/-- A literal is not one of "not a number". -/
def Expr.NotNan : Expr → Prop
  | .float x _ => x ≠ .nan
  | _ => True

def Value.NotNan : Value → Prop
  | .float x => x ≠ .nan
  | _ => True

def Token.NotNan : Token → Prop
  | .float x => x ≠ .nan
  | _ => True

/-! ## Programs -/

theorem Token.Spelt.notNan {t : Token} {text : List Char} (h : t.Spelt text) : t.NotNan := by
  cases h with
  | word =>
    unfold Token.ofWord
    split <;> trivial
  | float => exact Binary64.ofRatio_ne_nan _ _ _
  | _ => trivial

theorem Spanned.ReadIn.notNan {source : List Char} {t : Spanned} (h : t.ReadIn source) :
    t.token.NotNan := by
  obtain ⟨c, -, ⟨after, hreads⟩ | rfl⟩ := h
  · cases hreads with
    | lexeme _ _ hl => exact (spelt_lexeme hl).1.notNan
    | _ => trivial
  · trivial

/-- The token, wherever it stands, and those in it at any depth are not "not a number". -/
def TreeProperty.notNan : TreeProperty where
  token t := ∃ u : Spanned, u.token = t ∧ u.Everywhere (·.token.NotNan)
  expr := Expr.NotNan
  code := by
    rintro parts tokens us ⟨s, hstring, hs⟩ hcode hus t ht
    have hmem : t ∈ tokens.map (·.token) := hus ▸ List.mem_append_left [.eof] ht
    obtain ⟨u, hu, rfl⟩ := List.mem_map.1 hmem
    refine ⟨u, rfl, hs.inner ?_⟩
    rw [Spanned.inner, hstring]
    exact List.mem_flatMap.2 ⟨_, hcode, hu⟩
  letIn _ _ := trivial
  lambda _ _ := trivial
  int _ := trivial
  float := by
    rintro v ⟨u, hu, hfloat⟩
    have hself := hfloat.self
    rwa [hu] at hself
  bool _ := trivial
  name _ := trivial
  template _ _ := trivial
  list _ := trivial
  map _ := trivial
  member _ := trivial
  method _ := trivial
  index _ _ := trivial
  apply _ _ := trivial

theorem Expr.notNan_unplaced (e : Expr) : e.unplaced.NotNan ↔ e.NotNan := by
  cases e <;> simp [NotNan]

theorem Program.notNan_of_parse {source : String} {p : Program} (h : parse source = .ok p) :
    p.expression.Everywhere Expr.NotNan := by
  refine everywhere_of_parse h .notNan Expr.notNan_unplaced fun u hu _ => ⟨u, rfl, ?_⟩
  exact (Cursor.everywhere_tokens (.refl _) u hu).imp fun _ => Spanned.ReadIn.notNan

/-! ## Values -/

/-- Values that are not "not a number", made by expressions without such literals. -/
def ValueProperty.notNan : ValueProperty where
  holds
    | .float x => x ≠ .nan
    | .closure c => c.lambda.toExpr.Everywhere Expr.NotNan
    | _ => True
  admits e := e.Everywhere Expr.NotNan
  part h := h.part
  int _ := trivial
  float h := h.self
  string _ := trivial
  bool _ := trivial
  list _ := trivial
  map _ := trivial
  closure_iff := Iff.rfl

namespace Value

variable {v : Value}

theorem notNan_of_holds (h : ValueProperty.notNan.holds v) : v.NotNan := by
  cases v with
  | float => exact h
  | _ => trivial

/-- A value without closures is made by no expression. -/
theorem Everywhere.holds_of_closureFree (h : v.Everywhere NotNan) (hfree : v.ClosureFree) :
    v.Everywhere ValueProperty.notNan.holds := by
  induction h with
  | @intro v hv _ ih =>
    cases v with
    | float => exact .intro hv (List.forall_mem_nil _)
    | list items => exact .intro trivial fun w hw => ih w hw fun c hc => hfree c (.item hw hc)
    | map fields =>
      refine .intro trivial fun w hw => ih w hw fun c hc => ?_
      obtain ⟨f, hf, rfl⟩ := List.mem_map.1 hw
      exact hfree c (.field hf hc)
    | closure c => exact absurd Contains.closure (hfree c)
    | _ => exact .intro trivial (List.forall_mem_nil _)

end Value

theorem Program.notNan_of_evaluateWith {source : String} {p : Program} {run : Run} {limit : Nat}
    {arguments : List (String × Value)} {v : Value} (hp : parse source = .ok p)
    (hfree : ∀ a ∈ arguments, a.2.ClosureFree)
    (harguments : ∀ a ∈ arguments, a.2.Everywhere Value.NotNan)
    (h : p.evaluateWith run arguments limit = .ok v) : v.Everywhere Value.NotNan := by
  have hall : ∀ a ∈ arguments, a.2.Everywhere ValueProperty.notNan.holds := fun a ha =>
    (harguments a ha).holds_of_closureFree (hfree a ha)
  have hv : v.Everywhere ValueProperty.notNan.holds :=
    ValueProperty.everywhere_of_evaluateWith (notNan_of_parse hp) hall h
  exact hv.imp fun _ => Value.notNan_of_holds

end ConfigExpr
