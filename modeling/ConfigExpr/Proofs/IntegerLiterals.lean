import ConfigExpr.Proofs.Lexemes
import Mathlib.Data.List.Induction
import Mathlib.Data.Nat.Digits.Defs

/-!
# Integer literals

A sign and digits are an integer unless a point and a digit follow. The integer is the number that
they write in base ten, however many digits there are, and one of more than 64 bits is an error at
its sign and digits (`Cursor.next_integer_exact`).
-/

namespace ConfigExpr

/-- The number that digits write in base ten. -/
def digitsValue (digits : List Char) : Nat :=
  Nat.ofDigits 10 (digits.reverse.map fun c => c.toNat - '0'.toNat)

theorem digitsValue_append (ds : List Char) (d : Char) :
    digitsValue (ds ++ [d]) = 10 * digitsValue ds + (d.toNat - '0'.toNat) := by
  rw [digitsValue, List.reverse_append, List.reverse_singleton, List.singleton_append,
    List.map_cons, Nat.ofDigits_cons, Nat.add_comm]
  rfl

theorem ofDigitChars_eq_digitsValue (digits : List Char) :
    Nat.ofDigitChars 10 digits 0 = digitsValue digits := by
  induction digits using List.reverseRecOn with
  | nil => rfl
  | append_singleton ds d ih =>
    rw [Nat.ofDigitChars_append, ih, Nat.ofDigitChars_cons, Nat.ofDigitChars_nil,
      digitsValue_append]

/-- The integer that a sign and digits write. -/
def integerValue (sign digits : List Char) : Int :=
  signed sign (digitsValue digits)

theorem signed_ofDigitChars (sign digits : List Char) :
    signed sign (Nat.ofDigitChars 10 digits 0) = integerValue sign digits := by
  rw [ofDigitChars_eq_digitsValue, integerValue]

namespace Lexeme

variable {sign digits : List Char}

theorem integer_of_lt (hle : -2 ^ 63 ≤ integerValue sign digits)
    (hlt : integerValue sign digits < 2 ^ 63) :
    ∃ v : Int64, v.toInt = integerValue sign digits ∧
      integer sign digits = .ok (.int v) := by
  have hv : (Int64.ofInt (integerValue sign digits)).toInt = _ :=
    Int64.toInt_ofInt_of_le hle hlt
  exact ⟨_, hv, integer_eq_ok_iff.2 (hv.trans (signed_ofDigitChars sign digits).symm)⟩

theorem integer_of_too_large (h : integerValue sign digits < -2 ^ 63 ∨
    2 ^ 63 ≤ integerValue sign digits) : integer sign digits = .error .numberTooLarge := by
  cases hinteger : integer sign digits with
  | ok t =>
    obtain ⟨v, rfl⟩ := exists_int_of_integer hinteger
    have hv := integer_eq_ok_iff.1 hinteger
    rw [signed_ofDigitChars] at hv
    have hlt := v.toInt_lt
    have hle := v.le_toInt
    omega
  | error fault =>
    unfold integer at hinteger
    dsimp only at hinteger
    split_ifs at hinteger <;> exact hinteger ▸ rfl

end Lexeme

namespace Cursor

variable {p : Nat} {sign digits rest : List Char}

/-- Digits that are no integer of 64 bits are an error. -/
theorem next_of_too_large (hsign : sign = [] ∨ sign = ['-']) (hne : digits ≠ [])
    (hdigits : ∀ c ∈ digits, c.isDigit = true) (hrest : ∀ c ∈ rest.head?, c.isDigit = false)
    (hpoint : ∀ f more, rest = '.' :: f :: more → f.isDigit = false)
    (h : integerValue sign digits < -2 ^ 63 ∨ 2 ^ 63 ≤ integerValue sign digits) :
    (⟨p, sign ++ digits ++ rest⟩ : Cursor).next =
      .error ⟨.numberTooLarge, ⟨p, p + bytes (sign ++ digits)⟩⟩ := by
  obtain ⟨d, ds, rfl⟩ := List.exists_cons_of_ne_nil hne
  obtain ⟨hd, hds⟩ := List.forall_mem_cons.1 hdigits
  obtain ⟨htake, hdrop⟩ := takeWhile_dropWhile_append hds hrest
  obtain ⟨hreading, hleft⟩ := Lexeme.number_integer sign d (hdrop.symm ▸ hpoint)
  rw [htake, Lexeme.integer_of_too_large h] at hreading
  obtain ⟨ch, more, hsplit, hblank, hquote, hread, hmore⟩ :=
    lexeme_number hsign hd (ds ++ rest)
  have hcut : sign ++ d :: ds ++ rest = ch :: more := by
    rw [← hsplit, List.append_assoc, List.cons_append]
  have htext : (lexeme ch more).text = sign ++ d :: ds :=
    Lexeme.text_eq _ (by rw [hmore, hleft, hdrop, hcut])
  rw [next_eq_error_iff, hcut, skipBlanks_of_not_blank hblank, ← htext]
  exact .lexeme hquote (hread.trans hreading)

/-- A sign and digits that neither a digit nor a point with a digit follows are the integer that they
write, if it has 64 bits, and an error at the sign and the digits if not. With a point and digits
after them they are a number up to the last of these digits. -/
theorem next_integer_exact {sign digits : List Char} (hsign : sign = [] ∨ sign = ['-'])
    (hne : digits ≠ []) (hdigits : ∀ c ∈ digits, c.isDigit = true) (p : Nat) :
    (∀ rest, (∀ c ∈ rest.head?, c.isDigit = false) →
      (∀ f more, rest = '.' :: f :: more → f.isDigit = false) →
      (-2 ^ 63 ≤ integerValue sign digits ∧ integerValue sign digits < 2 ^ 63 →
        ∃ v : Int64, v.toInt = integerValue sign digits ∧
          (⟨p, sign ++ digits ++ rest⟩ : Cursor).next.Yields
            ⟨.int v, ⟨p, p + bytes (sign ++ digits)⟩⟩ ⟨p + bytes (sign ++ digits), rest⟩) ∧
      (¬ (-2 ^ 63 ≤ integerValue sign digits ∧ integerValue sign digits < 2 ^ 63) →
        (⟨p, sign ++ digits ++ rest⟩ : Cursor).next =
          .error ⟨.numberTooLarge, ⟨p, p + bytes (sign ++ digits)⟩⟩)) ∧
    ∀ fraction rest, fraction ≠ [] → (∀ c ∈ fraction, c.isDigit = true) →
      (∀ c ∈ rest.head?, c.isDigit = false) →
      let stop := p + bytes (sign ++ digits ++ '.' :: fraction)
      (⟨p, sign ++ digits ++ '.' :: fraction ++ rest⟩ : Cursor).next.Yields
        ⟨.float (.ofDigits (!sign.isEmpty) digits fraction), ⟨p, stop⟩⟩ ⟨stop, rest⟩ := by
  obtain ⟨d, ds, rfl⟩ := List.exists_cons_of_ne_nil hne
  refine ⟨fun rest hrest hpoint => ⟨?_, fun hout => ?_⟩, fun fraction rest hfraction hfs hrest => ?_⟩
  · rintro ⟨hle, hlt⟩
    obtain ⟨v, hv, hinteger⟩ := Lexeme.integer_of_lt hle hlt
    exact ⟨v, hv, yields_next_of_spelt (.int hsign hdigits hinteger)
      (goesOn_int_iff.2 ⟨hrest, hpoint⟩) p⟩
  · exact next_of_too_large hsign hne hdigits hrest hpoint (by omega)
  · obtain ⟨f, fs, rfl⟩ := List.exists_cons_of_ne_nil hfraction
    exact yields_next_of_spelt (.float hsign hdigits hfs) (goesOn_float_iff.2 hrest) p

/-- The least integer, the one after the greatest behind a zero, an integer on which a method is
called, and digits around a point. -/
theorem next_integer_exact_limits :
    let bound := "9223372036854775808".toList
    (⟨0, '-' :: bound ++ [')']⟩ : Cursor).next.Yields ⟨.int Int64.minValue, ⟨0, 20⟩⟩ ⟨20, [')']⟩ ∧
      (⟨5, '0' :: bound⟩ : Cursor).next = .error ⟨.numberTooLarge, ⟨5, 25⟩⟩ ∧
      (⟨0, "1.trim()".toList⟩ : Cursor).next.Yields ⟨.int 1, ⟨0, 1⟩⟩ ⟨1, ".trim()".toList⟩ ∧
      (⟨0, "-1.50x".toList⟩ : Cursor).next.Yields
        ⟨.float (.ofDigits true ['1'] ['5', '0']), ⟨0, 5⟩⟩ ⟨5, ['x']⟩ := by
  intro bound
  have hall (cs : List Char) (h : cs.all Char.isDigit = true) : ∀ c ∈ cs, c.isDigit = true :=
    List.all_eq_true.1 h
  have hbound : Nat.ofDigitChars 10 bound 0 = 9223372036854775808 := by
    show Nat.ofDigitChars 10 "9223372036854775808".toList 0 = 9223372036854775808
    cbv
  have hminus : ['-'] = [] ∨ ['-'] = ['-'] := .inr rfl
  have hnone : ([] : List Char) = [] ∨ [] = ['-'] := .inl rfl
  refine ⟨?_, ?_, ?_, ?_⟩
  · have hvalue : integerValue ['-'] bound = Int64.minValue.toInt := by
      rw [← signed_ofDigitChars, hbound]
      decide
    obtain ⟨hint, -⟩ := (next_integer_exact hminus (by decide) (hall bound (by decide)) 0).1 [')']
      (by simp) (by simp)
    obtain ⟨v, hv, hnext⟩ := hint (by rw [hvalue]; simp)
    obtain rfl : v = Int64.minValue := Int64.toInt_inj.1 (hv.trans hvalue)
    exact hnext
  · have hvalue : integerValue [] ('0' :: bound) = 9223372036854775808 := by
      rw [← signed_ofDigitChars, Nat.ofDigitChars_cons]
      exact congrArg (signed []) hbound
    obtain ⟨-, hlarge⟩ := (next_integer_exact hnone (List.cons_ne_nil '0' bound)
      (hall _ (by decide)) 5).1 [] (by simp) (by simp)
    exact hlarge (by rw [hvalue]; simp)
  · obtain ⟨hint, -⟩ := (next_integer_exact hnone (List.cons_ne_nil '1' [])
      (hall _ (by decide)) 0).1 ".trim()".toList (by simp) (by simp)
    obtain ⟨v, hv, hnext⟩ := hint (by decide)
    obtain rfl : v = 1 := Int64.toInt_inj.1 hv
    exact hnext
  · exact (next_integer_exact hminus (by decide) (hall ['1'] (by decide)) 0).2
      ['5', '0'] ['x'] (by decide) (hall _ (by decide)) (by simp)

end Cursor

end ConfigExpr
