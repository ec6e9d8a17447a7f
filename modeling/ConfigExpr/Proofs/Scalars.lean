import ConfigExpr.Proofs.SoleTokens

/-!
# Scalars

A scalar is an integer of 64 bits, a number with a point or a boolean, in the form it has in a
program. An argument whose text is a scalar but for blank characters around it stands for that
value, as the text does as a program, and every other text stands for itself
(`readLiteral_scalar`).
-/

namespace ConfigExpr

/-! ## Scalars as tokens -/

/-- The value that a text stands for as a scalar. -/
inductive Scalar : List Char → Value → Prop where
  | int {sign digits : List Char} {v : Int64} : (sign = [] ∨ sign = ['-']) → digits ≠ [] →
    (∀ c ∈ digits, c.isDigit = true) → v.toInt = signed sign (Nat.ofDigitChars 10 digits 0) →
    Scalar (sign ++ digits) (.int v)
  | float {sign whole fraction : List Char} : (sign = [] ∨ sign = ['-']) → whole ≠ [] →
    fraction ≠ [] → (∀ c ∈ whole ++ fraction, c.isDigit = true) →
    Scalar (sign ++ whole ++ '.' :: fraction)
      (.float (.ofDigits (!sign.isEmpty) whole fraction))
  | trueWord : Scalar "true".toList (.bool true)
  | falseWord : Scalar "false".toList (.bool false)

/-- The value of a token that is a scalar. -/
def Token.scalar? : Token → Option Value
  | .int v => some (.int v)
  | .float x => some (.float x)
  | .keyword .trueWord => some (.bool true)
  | .keyword .falseWord => some (.bool false)
  | _ => none

theorem Scalar.exists_spelt {text : List Char} {v : Value} (h : Scalar text v) :
    ∃ t : Token, t.Spelt text ∧ t.scalar? = some v := by
  cases h with
  | @int sign digits v hsign hne hdigits hv =>
    obtain ⟨d, us, rfl⟩ := List.exists_cons_of_ne_nil hne
    exact ⟨.int v, .int hsign hdigits (Lexeme.integer_eq_ok_iff.2 hv), rfl⟩
  | @float sign whole fraction hsign hwhole hfraction hdigits =>
    obtain ⟨hus, hvs⟩ := List.forall_mem_append.1 hdigits
    obtain ⟨d, us, rfl⟩ := List.exists_cons_of_ne_nil hwhole
    obtain ⟨f, vs, rfl⟩ := List.exists_cons_of_ne_nil hfraction
    exact ⟨.float _, .float hsign hus hvs, rfl⟩
  | trueWord => exact ⟨_, .keyword .trueWord, rfl⟩
  | falseWord => exact ⟨_, .keyword .falseWord, rfl⟩

theorem Token.Spelt.scalar {t : Token} {text : List Char} {v : Value} (h : t.Spelt text)
    (hv : t.scalar? = some v) : Scalar text v := by
  cases h with
  | @word c us hc hus =>
    unfold ofWord at hv
    split at hv
    next k hk =>
      have htext : c :: us = k.text.toList := by
        rw [← Keyword.eq_text_of_ofText? hk, String.toList_ofList]
      rw [htext]
      cases k <;> cases hv
      · exact .trueWord
      · exact .falseWord
    next => cases hv
  | int hsign hus hinteger =>
    cases hv
    exact .int hsign (List.cons_ne_nil _ _) hus (Lexeme.integer_eq_ok_iff.1 hinteger)
  | float hsign hus hvs =>
    cases hv
    exact .float hsign (List.cons_ne_nil _ _) (List.cons_ne_nil _ _)
      (List.forall_mem_append.2 ⟨hus, hvs⟩)
  | _ => cases hv

/-- A text is a scalar, but for blank characters around it, if its one token is. -/
theorem only?_bind_scalar?_eq_some_iff {text : List Char} {v : Value} :
    (Token.only? text).bind Token.scalar? = some v ↔ Scalar (Text.trim text) v := by
  have honly : ∀ t : Token, t.scalar? = some v →
      (Token.only? text = some t ↔ t.Spelt (Text.trim text)) := by
    intro t ht
    refine Token.only?_eq_some_iff ?_ ?_
    · rintro parts rfl
      cases ht
    · cases t with
      | comment => cases ht
      | _ => rfl
  rw [Option.bind_eq_some_iff]
  constructor
  · rintro ⟨t, ht, hv⟩
    exact ((honly t hv).1 ht).scalar hv
  · intro h
    obtain ⟨t, hspelt, hv⟩ := h.exists_spelt
    exact ⟨t, (honly t hv).2 hspelt, hv⟩

theorem readLiteral_eq (text : String) :
    readLiteral text = ((Token.only? text.toList).bind Token.scalar?).getD (.string text) := by
  unfold readLiteral
  cases Token.only? text.toList with
  | none => rfl
  | some t =>
    cases t with
    | keyword w => cases w <;> rfl
    | _ => rfl

/-! ## Scalars as programs -/

theorem Token.exists_atom_of_scalar? {t : Token} {v : Value} (h : t.scalar? = some v) (s : Span) :
    ∃ e, Spanned.atom? ⟨t, s⟩ = some e ∧ ∀ eval scope, Expr.step eval scope e = .ok v := by
  cases t with
  | int | float =>
    cases h
    exact ⟨_, rfl, fun _ _ => rfl⟩
  | keyword w => cases w <;> cases h <;> exact ⟨_, rfl, fun _ _ => rfl⟩
  | _ => cases h

theorem Token.not_closure_of_scalar? {t : Token} {c : Closure} :
    t.scalar? ≠ some (.closure c) := by
  unfold scalar?
  split <;> nofun

namespace Program

theorem evaluateWith_of_evaluateIn {p : Program} {run : Run} {arguments : List (String × Value)}
    {limit : Nat} {v : Value} (hv : ∀ c, v ≠ .closure c)
    (h : p.evaluateIn run (argumentEnv run arguments) limit = .ok v) :
    p.evaluateWith run arguments limit = .ok v := by
  rw [evaluateWith, h]
  cases v with
  | closure c => exact absurd rfl (hv c)
  | _ => rfl

end Program

/-- A text that is a scalar, but for blank characters around it, is read as the scalar, and every
other text as itself. A text that is not read as itself is a program with the value read. -/
theorem readLiteral_scalar (text : String) :
    (∀ v, Scalar (Text.trim text.toList) v → readLiteral text = v) ∧
      ((∀ v, ¬ Scalar (Text.trim text.toList) v) → readLiteral text = .string text) ∧
      ((∀ s, readLiteral text ≠ .string s) → ∃ p, Program.parse text = .ok p ∧
        ∀ run limit, 0 < limit →
          (∀ env, p.evaluateIn run env limit = .ok (readLiteral text)) ∧
          ∀ arguments, p.evaluateWith run arguments limit = .ok (readLiteral text)) := by
  rw [readLiteral_eq]
  refine ⟨fun v hv => ?_, fun hnone => ?_, fun hne => ?_⟩
  · rw [only?_bind_scalar?_eq_some_iff.2 hv, Option.getD_some]
  · have hbind : (Token.only? text.toList).bind Token.scalar? = none :=
      Option.eq_none_iff_forall_ne_some.2 fun v hv => hnone v (only?_bind_scalar?_eq_some_iff.1 hv)
    rw [hbind, Option.getD_none]
  · cases hbind : (Token.only? text.toList).bind Token.scalar? with
    | none => exact absurd (by rw [hbind, Option.getD_none]) (hne text)
    | some v =>
      obtain ⟨t, ht, hv⟩ := Option.bind_eq_some_iff.1 hbind
      obtain ⟨s, hparse⟩ := Program.parse_of_only? ht
      obtain ⟨e, he, hstep⟩ := Token.exists_atom_of_scalar? hv s
      refine ⟨_, hparse e he, fun run limit hlimit => ?_⟩
      obtain ⟨depth, rfl⟩ := Nat.exists_eq_succ_of_ne_zero (Nat.ne_of_gt hlimit)
      have hin (env : Env) : (⟨e, []⟩ : Program).evaluateIn run env (depth + 1) = .ok v := hstep _ _
      refine ⟨hin, fun arguments => Program.evaluateWith_of_evaluateIn ?_ (hin _)⟩
      rintro c rfl
      exact Token.not_closure_of_scalar? hv

/-- The least integer of 64 bits is a scalar, and the integer after the greatest is a text. -/
theorem readLiteral_scalar_least :
    let least := " -9223372036854775808\n"
    let beyond := "9223372036854775808"
    Scalar (Text.trim least.toList) (.int Int64.minValue) ∧
      readLiteral least = .int Int64.minValue ∧
      (∃ p, Program.parse least = .ok p ∧
        p.evaluateWith ⟨0, 0⟩ [] 256 = .ok (.int Int64.minValue)) ∧
      (∀ v, ¬ Scalar (Text.trim beyond.toList) v) ∧ readLiteral beyond = .string beyond := by
  intro least beyond
  have htrim : Text.trim least.toList = ['-'] ++ beyond.toList := by cbv
  have hleast : Scalar (Text.trim least.toList) (.int Int64.minValue) := by
    rw [htrim]
    exact .int (.inr rfl) (by decide) (List.all_eq_true.1 (by cbv)) (by decide)
  have hbeyond : ∀ v, ¬ Scalar (Text.trim beyond.toList) v := by
    intro v hv
    have hnone : (Token.only? beyond.toList).bind Token.scalar? = none := by cbv
    cases hnone.symm.trans (only?_bind_scalar?_eq_some_iff.2 hv)
  obtain ⟨hread, -, hvalue⟩ := readLiteral_scalar least
  have hint : readLiteral least = .int Int64.minValue := hread _ hleast
  rw [hint] at hvalue
  obtain ⟨p, hparse, heval⟩ := hvalue fun _ h => by cases h
  exact ⟨hleast, hint, ⟨p, hparse, (heval _ 256 (by decide)).2 []⟩, hbeyond,
    (readLiteral_scalar beyond).2.1 hbeyond⟩

end ConfigExpr
