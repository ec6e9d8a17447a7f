import ConfigExpr.Program.Run
import ConfigExpr.Proofs.Decimals
import ConfigExpr.Proofs.SoleTokens
import ConfigExpr.Proofs.Written
import ConfigExpr.Value.Render

/-!
# Floats as literals

A float literal has no exponent, but the text of a finite number has one where it is very small or
very large. The text of every other finite number is read back as that number, and only those
are (`Value.tokens_toString_float_iff`).
-/

namespace ConfigExpr

namespace Binary64

/-- Zero and the magnitudes from `1e-4` up to `1e16`, which are written without an exponent. -/
def HasLiteral (rank : Nat) : Prop :=
  rank = 0 ∨ (1 / 10 ^ 4 ≤ magnitude rank ∧ magnitude rank < 10 ^ 16)

theorem Layout.write_finite (layout : Layout) (negative : Bool) (rank : Fin rankCount) :
    layout.write (.finite negative rank) =
      (if negative then ['-'] else []) ++ layout.magnitude rank :=
  rfl

theorem Layout.magnitude_zero (layout : Layout) :
    layout.magnitude 0 = '0' :: layout.afterWhole :=
  rfl

theorem Layout.magnitude_pos (layout : Layout) {rank : Nat} (h : 0 < rank) :
    layout.magnitude rank =
      if layout.isPositional (shortest rank).point then
        (shortest rank).positional layout.afterWhole
      else (shortest rank).scientific := by
  unfold Layout.magnitude
  rw [if_neg (Nat.ne_of_gt h)]

variable {rank : Nat}

/-- The digits around a point that a magnitude is written as round to it. -/
theorem exists_digits_of_hasLiteral (h : HasLiteral rank) :
    ∃ whole fraction, Layout.literal.magnitude rank = whole ++ '.' :: fraction ∧
      whole ≠ [] ∧ fraction ≠ [] ∧ (∀ c ∈ whole ++ fraction, c.isDigit = true) ∧
      ∃ (d : Nat) (e : Int), pointValue whole fraction = d * 10 ^ e ∧ rankOfDecimal d e = rank := by
  rcases Nat.eq_zero_or_pos rank with rfl | hpos
  · refine ⟨['0'], ['0'], Layout.magnitude_zero _, nofun, nofun, by simp, 0, 0, ?_,
      rankOfDecimal_zero 0⟩
    rw [pointValue, Nat.cast_zero, zero_mul, mul_eq_zero]
    exact .inl (Nat.cast_eq_zero.2 (by decide))
  · have hrange := h.resolve_left (Nat.ne_of_gt hpos)
    obtain ⟨d, e, hshortest, hd⟩ := exists_shortest_eq rank
    obtain ⟨whole, fraction, htext, hwhole, hfraction, hdigit, hvalue⟩ :=
      Decimal.exists_positional (pos_of_rankOfDecimal_pos (hd.symm ▸ hpos)) e
    refine ⟨whole, fraction, ?_, hwhole, hfraction, hdigit, d, e, hvalue, hd⟩
    rw [Layout.magnitude_pos _ hpos, if_pos ((isPositional_shortest_iff hpos).2 hrange), hshortest]
    exact htext

theorem readsBack_of_hasLiteral (negative : Bool) {rank : Fin rankCount} (h : HasLiteral rank) :
    (finite negative rank).ReadsBack := by
  obtain ⟨whole, fraction, hwrite, hwhole, hfraction, hdigit, d, e, hvalue, hd⟩ :=
    exists_digits_of_hasLiteral h
  refine ⟨if negative then ['-'] else [], whole, fraction, ?_, ?_, hwhole, hfraction, hdigit, ?_⟩
  · rw [Layout.write_finite, hwrite, List.append_assoc]
  · cases negative <;> simp
  · have hsign : (!(if negative then ['-'] else []).isEmpty) = negative := by
      cases negative <;> rfl
    rw [hsign]
    exact ofDigits_eq_finite negative hvalue hd

theorem Decimal.mem_scientific (d : Decimal) : 'e' ∈ d.scientific := by
  unfold scientific
  dsimp only
  split <;> simp

/-- A number without a literal is written with an exponent. -/
theorem mem_write_of_not_hasLiteral (negative : Bool) {rank : Fin rankCount}
    (h : ¬ HasLiteral rank) : 'e' ∈ Layout.literal.write (finite negative rank) := by
  obtain ⟨hzero, hrange⟩ := not_or.1 h
  have hpos := Nat.pos_of_ne_zero hzero
  rw [Layout.write_finite, Layout.magnitude_pos _ hpos,
    if_neg (mt (isPositional_shortest_iff hpos).1 hrange)]
  exact List.mem_append_right _ (Decimal.mem_scientific _)

end Binary64

/-! ## Floats -/

theorem Token.Spelt.not_mem_float {x : Binary64} {text : List Char} {c : Char}
    (h : (Token.float x).Spelt text) (hc : isWordStart c = true) : c ∉ text := by
  generalize ht : Token.float x = t at h
  have hdigit : c.isDigit ≠ true := fun hd => by simp [not_isWordStart_of_isDigit hd] at hc
  cases h with
  | word =>
    unfold Token.ofWord at ht
    split at ht <;> cases ht
  | @float sign us vs d f hsign hus hvs =>
    intro hmem
    rcases List.mem_append.1 hmem with hmem | hmem
    · rcases List.mem_append.1 hmem with hmem | hmem
      · rcases hsign with rfl | rfl
        · cases hmem
        · obtain rfl := List.mem_singleton.1 hmem
          cases hc
      · exact hdigit (hus c hmem)
    · rcases List.mem_cons.1 hmem with rfl | hmem
      · cases hc
      · exact hdigit (hvs c hmem)
  | _ => cases ht

theorem Value.toString_float (x : Binary64) :
    toString (Value.float x) = String.ofList (Binary64.Layout.literal.write x) :=
  rfl

/-- Digits around a point are read as one token. -/
theorem exists_tokens_of_digits {sign whole fraction : List Char}
    (hsign : sign = [] ∨ sign = ['-']) (hwhole : whole ≠ []) (hfraction : fraction ≠ [])
    (hdigit : ∀ c ∈ whole ++ fraction, c.isDigit = true) {text : List Char}
    (htext : text = sign ++ whole ++ '.' :: fraction) :
    ∃ s q, (Cursor.start text).tokens =
      ⟨[⟨.float (.ofDigits (!sign.isEmpty) whole fraction), s⟩, ⟨.eof, .point q⟩], none⟩ := by
  obtain ⟨hus, hvs⟩ := List.forall_mem_append.1 hdigit
  obtain ⟨d, us, rfl⟩ := List.exists_cons_of_ne_nil hwhole
  obtain ⟨f, vs, rfl⟩ := List.exists_cons_of_ne_nil hfraction
  have hspelt := Token.Spelt.float hsign hus hvs
  rw [← htext] at hspelt
  have hrest : (Cursor.start text).rest = [] ++ (text ++ []) := (List.append_nil text).symm
  exact Cursor.exists_tokens_of_spelt hspelt rfl (by simp) hrest

theorem Binary64.ReadsBack.tokens {x : Binary64} (h : x.ReadsBack) :
    ∃ s q, Tokens.ofText (toString (Value.float x)) =
      ⟨[⟨.float x, s⟩, ⟨.eof, .point q⟩], none⟩ := by
  obtain ⟨sign, whole, fraction, hwrite, hsign, hwhole, hfraction, hdigit, rfl⟩ := h
  rw [Tokens.ofText, Value.toString_float, String.toList_ofList]
  exact exists_tokens_of_digits hsign hwhole hfraction hdigit hwrite

/-- The text of a finite number is read as the number alone if it has no exponent, and only then. -/
theorem Value.tokens_toString_float_iff (negative : Bool) (rank : Fin rankCount) :
    let x := Binary64.finite negative rank
    let ts := Tokens.ofText (toString (Value.float x))
    (ts.tokens.map (·.token) = [.float x, .eof] ∧ ts.error = none) ↔ Binary64.HasLiteral rank := by
  intro x ts
  constructor
  · rintro ⟨htokens, -⟩
    by_contra hrange
    have hmem := Binary64.mem_write_of_not_hasLiteral negative hrange
    obtain ⟨before, text, after, hrest, hspelt, hblank⟩ :=
      Cursor.exists_spelt_of_tokens (t := .float x) nofun htokens
    have htext : Binary64.Layout.literal.write x = before ++ (text ++ after) := by
      rw [← hrest, Cursor.start, toString_float, String.toList_ofList]
    rw [htext] at hmem
    have hword : Text.isBlank 'e' = false := isBlank_of_isWordRest rfl
    rcases List.mem_append.1 hmem with hmem | hmem
    · cases hword.symm.trans (hblank _ (List.mem_append_left _ hmem))
    · rcases List.mem_append.1 hmem with hmem | hmem
      · exact hspelt.not_mem_float rfl hmem
      · cases hword.symm.trans (hblank _ (List.mem_append_right _ hmem))
  · intro h
    obtain ⟨s, q, htokens⟩ := (Binary64.readsBack_of_hasLiteral negative h).tokens
    have hts : ts = _ := htokens
    rw [hts]
    exact ⟨rfl, rfl⟩

/-- A program can hold ten to the power of 16, whose text is read as an integer and a name. -/
theorem Value.tokens_toString_float_exponent :
    ∃ p x, Program.parse "10000000000000000.0" = .ok p ∧
      p.evaluateIn ⟨0, 0⟩ [] 1 = .ok (.float x) ∧ (∃ rank, x = .finite false rank) ∧
      toString (Value.float x) = "1e16" ∧
      (Tokens.ofText (toString (Value.float x))).tokens.map (·.token) =
        [.int 1, .ident "e16", .eof] := by
  let whole := '1' :: List.replicate 16 '0'
  have hx : Binary64.ofDigits false whole ['0'] = .finite false ⟨4846369599423283200, by decide⟩ :=
    by decide +kernel
  have hwrite : Binary64.Layout.literal.write (.ofDigits false whole ['0']) = ['1', 'e', '1', '6'] :=
    by decide +kernel
  have htext : toString (Value.float (.ofDigits false whole ['0'])) = "1e16" :=
    congrArg String.ofList hwrite
  have hdigit : ∀ c ∈ whole ++ ['0'], c.isDigit = true := List.all_eq_true.1 rfl
  obtain ⟨s, q, hsource⟩ :=
    exists_tokens_of_digits (.inl rfl) (List.cons_ne_nil _ _) (List.cons_ne_nil _ _) hdigit
      (rfl : whole ++ ['.', '0'] = [] ++ whole ++ '.' :: ['0'])
  have hparse : Program.parse "10000000000000000.0" =
      .ok ⟨.float (.ofDigits false whole ['0']) s, []⟩ :=
    (congrArg Program.ofTokens hsource).trans (Program.ofTokens_atom rfl (.point q))
  have htokens : (Tokens.ofText "1e16").tokens.map (·.token) = [.int 1, .ident "e16", .eof] := by
    cbv
  exact ⟨_, _, hparse, rfl, ⟨_, hx⟩, htext, htext ▸ htokens⟩

end ConfigExpr
