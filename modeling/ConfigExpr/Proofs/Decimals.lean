import ConfigExpr.Binary64.Notation
import ConfigExpr.Proofs.Rounding
import Mathlib.Algebra.Order.Field.Power
import Mathlib.Data.List.TakeWhile
import Mathlib.Data.Rat.Cast.Order
import Mathlib.Tactic.FieldSimp
import Mathlib.Tactic.Linarith

/-!
# Shortest decimals read back

The shortest decimal of a magnitude rounds to it (`exists_shortest_eq`), and so do the digits around
the point that it is written as without an exponent (`Decimal.Reads.exists_positional`). Where its
point stands shows the size of the magnitude (`point_shortest_le_iff`).
-/

namespace ConfigExpr.Binary64

/-- A magnitude as a number. -/
def magnitude (rank : Nat) : ℚ := units rank / unitsPerOne

/-- The rank that a decimal is rounded to. -/
def rankOfDecimal (digits : Nat) (exponent : Int) : Nat :=
  rankOfRatio (decimalRatio digits exponent).1 (decimalRatio digits exponent).2

/-! ## Rounding decimals -/

theorem tenPow_pos (n : Nat) : 0 < tenPow n :=
  Nat.pow_pos (by decide)

theorem cast_tenPow (n : Nat) : (tenPow n : ℚ) = 10 ^ n :=
  Nat.cast_pow 10 n

theorem decimalRatio_snd_pos (digits : Nat) (exponent : Int) :
    0 < (decimalRatio digits exponent).2 :=
  tenPow_pos _

theorem decimalRatio_value (digits : Nat) (exponent : Int) :
    ((decimalRatio digits exponent).1 : ℚ) / (decimalRatio digits exponent).2 =
      digits * 10 ^ exponent := by
  have hten : (10 : ℚ) ≠ 0 := by norm_num
  simp only [decimalRatio, Nat.cast_mul, cast_tenPow]
  rw [mul_div_assoc, ← zpow_natCast, ← zpow_natCast, ← zpow_sub₀ hten]
  congr 2
  omega

section

variable {p q p' q' : Nat}

theorem rankOfRatio_mono_div (hq : 0 < q) (hq' : 0 < q') (h : (p : ℚ) / q ≤ p' / q') :
    rankOfRatio p q ≤ rankOfRatio p' q' := by
  rw [div_le_div_iff₀ (Nat.cast_pos.2 hq) (Nat.cast_pos.2 hq')] at h
  exact rankOfRatio_mono hq hq' (by exact_mod_cast h)

end

variable {d d' rank : Nat} {e e' m : Int}

theorem rankOfDecimal_mono (h : (d : ℚ) * 10 ^ e ≤ d' * 10 ^ e') :
    rankOfDecimal d e ≤ rankOfDecimal d' e' := by
  rw [← decimalRatio_value, ← decimalRatio_value] at h
  exact rankOfRatio_mono_div (decimalRatio_snd_pos d e) (decimalRatio_snd_pos d' e') h

theorem rankOfDecimal_congr (h : (d : ℚ) * 10 ^ e = d' * 10 ^ e') :
    rankOfDecimal d e = rankOfDecimal d' e' :=
  Nat.le_antisymm (rankOfDecimal_mono h.le) (rankOfDecimal_mono h.ge)

theorem le_of_magnitude_le (h : magnitude rank ≤ d * 10 ^ e) : rank ≤ rankOfDecimal d e := by
  rw [magnitude, ← decimalRatio_value] at h
  have hle := rankOfRatio_mono_div unitsPerOne_pos (decimalRatio_snd_pos d e) h
  rwa [rankOfRatio_units] at hle

theorem le_of_le_magnitude (h : d * 10 ^ e ≤ magnitude rank) : rankOfDecimal d e ≤ rank := by
  rw [magnitude, ← decimalRatio_value] at h
  have hle := rankOfRatio_mono_div (decimalRatio_snd_pos d e) unitsPerOne_pos h
  rwa [rankOfRatio_units] at hle

theorem rankOfDecimal_zero (e : Int) : rankOfDecimal 0 e = 0 := by
  refine Nat.le_zero.1 (le_of_le_magnitude ?_)
  rw [Nat.cast_zero, zero_mul]
  exact div_nonneg (Nat.cast_nonneg _) (Nat.cast_nonneg _)

theorem ofDecimal_eq_finite (negative : Bool) {rank : Fin rankCount}
    (h : rankOfDecimal d e = rank) : ofDecimal negative d e = .finite negative rank := by
  have hrank : rankOfRatio (decimalRatio d e).1 (decimalRatio d e).2 = rank := h
  simp [ofDecimal, ofRatio, hrank]

/-! ## The shortest decimal -/

theorem cast_mul_fivePow (n k : Nat) :
    ((n * fivePow k : Nat) : ℚ) * 10 ^ (-k : Int) = n / (twoPow k : Nat) := by
  have hten : (10 : ℚ) ^ k = 2 ^ k * 5 ^ k := by rw [← mul_pow]; norm_num
  have htwo : (twoPow k : ℚ) = 2 ^ k := Nat.cast_pow 2 k
  have hfive : (fivePow k : ℚ) = 5 ^ k := Nat.cast_pow 5 k
  rw [Nat.cast_mul, hfive, htwo, zpow_neg, zpow_natCast, hten]
  field_simp

theorem roundsTo_iff : roundsTo rank d e = true ↔ rankOfDecimal d e = rank := by
  unfold roundsTo rankOfDecimal
  exact beq_iff_eq

theorem neighbour?_passes {passes : Nat → Bool} {p q n : Nat}
    (h : neighbour? passes p q = some n) : passes n = true := by
  unfold neighbour? at h
  dsimp only at h
  split at h
  next hlow hhigh =>
    cases h
    split
    · exact hlow
    · exact hhigh
  next hlow _ =>
    cases h
    exact hlow
  next _ hhigh =>
    cases h
    exact hhigh
  next => cases h

theorem exists_of_onGrid {decimal : Decimal} (h : onGrid rank e = some decimal) :
    ∃ d, decimal = .ofNat d e ∧ rankOfDecimal d e = rank := by
  obtain ⟨d, hd, rfl⟩ := Option.map_eq_some_iff.1 h
  exact ⟨d, rfl, roundsTo_iff.1 (neighbour?_passes hd)⟩

theorem exists_exact_eq (rank : Nat) :
    ∃ d e, exact rank = .ofNat d e ∧ rankOfDecimal d e = rank := by
  have hvalue := cast_mul_fivePow (units rank) 1074
  exact ⟨_, _, rfl, Nat.le_antisymm (le_of_le_magnitude hvalue.le) (le_of_magnitude_le hvalue.ge)⟩

/-- The shortest decimal of a magnitude rounds to it. -/
theorem exists_shortest_eq (rank : Nat) :
    ∃ d e, shortest rank = .ofNat d e ∧ rankOfDecimal d e = rank := by
  unfold shortest
  dsimp only
  cases hfind : (List.range 17).findSome? fun (k : Nat) => onGrid rank (leadingExponent rank - k) with
  | none => exact exists_exact_eq rank
  | some decimal =>
    obtain ⟨k, -, hk⟩ := List.exists_of_findSome?_eq_some hfind
    obtain ⟨d, rfl, hd⟩ := exists_of_onGrid hk
    exact ⟨d, _, rfl, hd⟩

theorem pos_of_rankOfDecimal_pos (h : 0 < rankOfDecimal d e) : 0 < d := by
  refine Nat.pos_of_ne_zero ?_
  rintro rfl
  rw [rankOfDecimal_zero] at h
  exact Nat.lt_irrefl 0 h

/-! ## Digits around a point -/

/-- The digits before and after a point as a number. -/
def pointValue (whole fraction : List Char) : ℚ :=
  Nat.ofDigitChars 10 (whole ++ fraction) 0 * 10 ^ (-fraction.length : Int)

theorem ofDigits_eq_finite (negative : Bool) {whole fraction : List Char} {rank : Fin rankCount}
    (hvalue : pointValue whole fraction = d * 10 ^ e) (hrank : rankOfDecimal d e = rank) :
    ofDigits negative whole fraction = .finite negative rank :=
  ofDecimal_eq_finite negative ((rankOfDecimal_congr hvalue).trans hrank)

namespace Decimal

/-- The digits of a number are those of its decimal and then zeros. -/
theorem exists_zeros (d : Nat) (e : Int) :
    ∃ zeros, Nat.toDigits 10 d = (ofNat d e).digits ++ List.replicate zeros '0' ∧
      (ofNat d e).point = (ofNat d e).digits.length + zeros + e := by
  let zeros := (Nat.toDigits 10 d).reverse.takeWhile (· == '0')
  have hzeros : zeros = List.replicate zeros.length '0' :=
    List.eq_replicate_iff.2 ⟨rfl, fun c hc => by simpa using List.mem_takeWhile_imp hc⟩
  have hall : Nat.toDigits 10 d = (ofNat d e).digits ++ List.replicate zeros.length '0' := by
    rw [← List.reverse_replicate, ← hzeros]
    show _ = (List.dropWhile _ _).reverse ++ _
    rw [← List.reverse_append, List.takeWhile_append_dropWhile, List.reverse_reverse]
  refine ⟨zeros.length, hall, ?_⟩
  have hlength := congrArg List.length hall
  rw [List.length_append, List.length_replicate] at hlength
  show ((Nat.toDigits 10 d).length : Int) + e = _
  omega

theorem isDigit_of_mem {c : Char} (h : c ∈ (ofNat d e).digits) : c.isDigit = true := by
  obtain ⟨zeros, hall, -⟩ := exists_zeros d e
  refine Nat.isDigit_of_mem_toDigits (b := 10) (n := d) (by decide) (by decide) ?_
  rw [hall]
  exact List.mem_append_left _ h

theorem digits_ne_nil (hd : 0 < d) : (ofNat d e).digits ≠ [] := by
  intro hnil
  obtain ⟨zeros, hall, -⟩ := exists_zeros d e
  have hvalue := Nat.ofDigitChars_ten_toDigits (n := d)
  rw [hall, hnil, List.nil_append, Nat.ofDigitChars_replicate_zero, Nat.mul_zero] at hvalue
  omega

/-- A decimal has the value of its digits, shifted to its point. -/
theorem value_ofNat (d : Nat) (e : Int) :
    (Nat.ofDigitChars 10 (ofNat d e).digits 0 : ℚ) *
      10 ^ ((ofNat d e).point - (ofNat d e).digits.length) = d * 10 ^ e := by
  obtain ⟨zeros, hall, hpoint⟩ := exists_zeros d e
  have hvalue : 10 ^ zeros * Nat.ofDigitChars 10 (ofNat d e).digits 0 = d := by
    rw [← Nat.ofDigitChars_replicate_zero, ← Nat.ofDigitChars_append, ← hall,
      Nat.ofDigitChars_ten_toDigits]
  have hexponent : (ofNat d e).point - (ofNat d e).digits.length = zeros + e := by omega
  rw [hexponent, zpow_add₀ (by norm_num), zpow_natCast, ← mul_assoc]
  congr 1
  rw [mul_comm]
  exact_mod_cast hvalue

/-- The place of the point bounds the value. -/
theorem point_le_iff (hd : 0 < d) : (ofNat d e).point ≤ m ↔ (d : ℚ) * 10 ^ e < 10 ^ m := by
  have hten : (0 : ℚ) < 10 ^ e := zpow_pos (by norm_num) e
  have hlength : (ofNat d e).point ≤ m ↔ ((Nat.toDigits 10 d).length : Int) ≤ m - e := by
    show ((Nat.toDigits 10 d).length : Int) + e ≤ m ↔ _
    omega
  rw [hlength, ← lt_div_iff₀ hten, ← zpow_sub₀ (by norm_num)]
  rcases lt_or_ge 0 (m - e) with hpos | hle
  · obtain ⟨k, hk⟩ := Int.eq_ofNat_of_zero_le hpos.le
    rw [hk] at hpos ⊢
    rw [Nat.cast_le, Nat.length_toDigits_le_iff (by decide) (by omega), zpow_natCast]
    exact_mod_cast Iff.rfl
  · have hdigits := Nat.length_toDigits_pos (b := 10) (n := d)
    have hpow : (10 : ℚ) ^ (m - e) ≤ 1 := zpow_le_one_of_nonpos₀ (by norm_num) hle
    have hone : (1 : ℚ) ≤ d := by exact_mod_cast hd
    exact ⟨fun h => by omega, fun h => by linarith⟩

/-- A decimal without an exponent is digits around a point with its value. -/
theorem exists_positional (hd : 0 < d) (e : Int) :
    ∃ whole fraction, (ofNat d e).positional ['.', '0'] = whole ++ '.' :: fraction ∧
      whole ≠ [] ∧ fraction ≠ [] ∧ (∀ c ∈ whole ++ fraction, c.isDigit = true) ∧
      pointValue whole fraction = d * 10 ^ e := by
  have hdigit : ∀ c ∈ (ofNat d e).digits, c.isDigit = true := fun c => isDigit_of_mem
  have hne := digits_ne_nil (e := e) hd
  have hlength := List.length_pos_iff.2 hne
  rw [← value_ofNat d e]
  generalize ofNat d e = D at hdigit hne hlength
  unfold positional
  split_ifs with hle hlt
  · refine ⟨['0'], List.replicate (-D.point).toNat '0' ++ D.digits, rfl, by simp, by simp [hne],
      ?_, ?_⟩
    · simpa [or_imp, forall_and] using hdigit
    · have hdigits : Nat.ofDigitChars 10 (['0'] ++ (List.replicate (-D.point).toNat '0' ++ D.digits))
          0 = Nat.ofDigitChars 10 D.digits 0 := by
        simp [Nat.ofDigitChars_append, Nat.ofDigitChars_cons]
      have hexponent : -(((-D.point).toNat + D.digits.length : Nat) : Int) =
          D.point - D.digits.length := by omega
      rw [pointValue, hdigits, List.length_append, List.length_replicate, hexponent]
  · have hexponent : -((D.digits.length - D.point.toNat : Nat) : Int) =
        D.point - D.digits.length := by omega
    refine ⟨D.digits.take D.point.toNat, D.digits.drop D.point.toNat, rfl, ?_, ?_, ?_, ?_⟩
    · rw [Ne, List.take_eq_nil_iff]
      exact not_or.2 ⟨by omega, hne⟩
    · rw [Ne, List.drop_eq_nil_iff]
      omega
    · simpa using hdigit
    · rw [pointValue, List.take_append_drop, List.length_drop, hexponent]
  · obtain ⟨zeros, hzeros⟩ : ∃ zeros : Nat, D.point - D.digits.length = zeros :=
      ⟨(D.point - D.digits.length).toNat, by omega⟩
    have hcount : D.point.toNat - D.digits.length = zeros := by omega
    refine ⟨D.digits ++ List.replicate (D.point.toNat - D.digits.length) '0', ['0'], rfl,
      by simp [hne], by simp, ?_, ?_⟩
    · simpa [or_imp, forall_and] using hdigit
    · have hdigits : Nat.ofDigitChars 10 (D.digits ++ List.replicate zeros '0' ++ ['0']) 0 =
          10 * (10 ^ zeros * Nat.ofDigitChars 10 D.digits 0) := by
        simp [Nat.ofDigitChars_append, Nat.ofDigitChars_cons]
      rw [pointValue, hcount, hdigits, hzeros, zpow_natCast]
      push_cast
      norm_num
      ring

end Decimal

/-! ## The point of the shortest decimal -/

theorem le_magnitude_iff : (d : ℚ) * 10 ^ e ≤ magnitude rank ↔
    (decimalRatio d e).1 * unitsPerOne ≤ units rank * (decimalRatio d e).2 := by
  rw [magnitude, ← decimalRatio_value, div_le_div_iff₀ (Nat.cast_pos.2 (decimalRatio_snd_pos d e))
    (Nat.cast_pos.2 unitsPerOne_pos)]
  exact_mod_cast Iff.rfl

/-- The point stands at most at a place if the magnitude is below that power of ten, provided that
the power's own rank is on the other side. -/
theorem point_shortest_le_iff {t : Nat} (ht : rankOfDecimal 1 m = t) (hle : 10 ^ m ≤ magnitude t)
    (hpoint : m < (shortest t).point) (hrank : 0 < rank) :
    (shortest rank).point ≤ m ↔ magnitude rank < 10 ^ m := by
  have hone : ((1 : Nat) : ℚ) * 10 ^ m = 10 ^ m := by rw [Nat.cast_one, one_mul]
  obtain ⟨d, e, hshortest, hd⟩ := exists_shortest_eq rank
  have hpos : 0 < d := pos_of_rankOfDecimal_pos (hd.symm ▸ hrank)
  have hne : (shortest rank).point ≤ m → rank ≠ t := by
    rintro hp rfl
    omega
  rw [hshortest] at hne ⊢
  rw [Decimal.point_le_iff hpos] at hne ⊢
  constructor
  · intro hlt
    have hrank : rank ≤ t := by
      rw [← hd, ← ht]
      exact rankOfDecimal_mono (hlt.le.trans hone.ge)
    refine lt_of_not_ge fun hge => hne hlt (Nat.le_antisymm hrank ?_)
    rw [← ht]
    exact le_of_le_magnitude (hone.le.trans hge)
  · intro hlt
    refine lt_of_not_ge fun hge => ?_
    have hrank : t ≤ rank := by
      rw [← hd, ← ht]
      exact rankOfDecimal_mono (hone.le.trans hge)
    have hrank' : rank ≤ t := by
      rw [← ht]
      exact le_of_magnitude_le (hlt.le.trans hone.ge)
    obtain rfl := Nat.le_antisymm hrank' hrank
    exact absurd hlt (not_lt.2 hle)

/-- The magnitudes that are written without an exponent. -/
theorem isPositional_shortest_iff (hrank : 0 < rank) :
    Layout.literal.isPositional (shortest rank).point = true ↔
      1 / 10 ^ 4 ≤ magnitude rank ∧ magnitude rank < 10 ^ 16 := by
  have hlow : (shortest rank).point ≤ -4 ↔ magnitude rank < 10 ^ (-4 : Int) :=
    point_shortest_le_iff (t := 4547007122018943789) (by decide +kernel)
      (by rw [← one_mul ((10 : ℚ) ^ (-4 : Int)), ← Nat.cast_one, le_magnitude_iff]; decide +kernel)
      (by decide +kernel) hrank
  have hhigh : (shortest rank).point ≤ 16 ↔ magnitude rank < 10 ^ (16 : Int) :=
    point_shortest_le_iff (t := 4846369599423283200) (by decide +kernel)
      (by rw [← one_mul ((10 : ℚ) ^ (16 : Int)), ← Nat.cast_one, le_magnitude_iff]; decide +kernel)
      (by decide +kernel) hrank
  have hfour : (10 : ℚ) ^ (-4 : Int) = 1 / 10 ^ 4 := by norm_num
  have hsixteen : (10 : ℚ) ^ (16 : Int) = 10 ^ 16 := by norm_num
  rw [hfour] at hlow
  rw [hsixteen] at hhigh
  rw [← not_lt, ← hlow, ← hhigh]
  simp only [Layout.literal, Bool.and_eq_true, decide_eq_true_eq]
  omega

end ConfigExpr.Binary64
