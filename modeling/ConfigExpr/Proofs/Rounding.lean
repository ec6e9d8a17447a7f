import ConfigExpr.Binary64.Basic
import Mathlib.Data.Nat.Log
import Mathlib.Tactic.Ring

/-!
# Rounding

The rank that a quotient is rounded to depends on its value alone (`rankOfRatio_congr`), does not
decrease as the quotient grows (`rankOfRatio_mono`), and is the rank of a magnitude where the
quotient is that magnitude (`rankOfRatio_units`).
-/

namespace ConfigExpr.Binary64

theorem twoPow_pos (n : Nat) : 0 < twoPow n :=
  Nat.pow_pos Nat.two_pos

theorem twoPow_add (m n : Nat) : twoPow (m + n) = twoPow m * twoPow n :=
  Nat.pow_add 2 m n

theorem unitsPerOne_pos : 0 < unitsPerOne :=
  twoPow_pos 1074

theorem blockSize_eq : blockSize = twoPow 52 :=
  rfl

theorem two_mul_blockSize : 2 * blockSize = twoPow 53 :=
  rfl

/-! ## The nearest whole number -/

theorem nearest_mul_right (p q : Nat) {k : Nat} (hk : 0 < k) :
    nearest (p * k) (q * k) = nearest p q := by
  have hlt : 2 * (p % q * k) < q * k ↔ 2 * (p % q) < q := by
    rw [← Nat.mul_assoc, Nat.mul_lt_mul_right hk]
  have hgt : q * k < 2 * (p % q * k) ↔ q < 2 * (p % q) := by
    rw [← Nat.mul_assoc, Nat.mul_lt_mul_right hk]
  simp only [nearest, Nat.mul_div_mul_right _ _ hk, Nat.mul_mod_mul_right, hlt, hgt]

theorem nearest_mul_self (n : Nat) {q : Nat} (hq : 0 < q) : nearest (n * q) q = n := by
  simp [nearest, Nat.mul_div_cancel n hq, hq]

theorem div_le_nearest (p q : Nat) : p / q ≤ nearest p q := by
  unfold nearest
  dsimp only
  split_ifs <;> omega

theorem nearest_le_div_succ (p q : Nat) : nearest p q ≤ p / q + 1 := by
  unfold nearest
  dsimp only
  split_ifs <;> omega

theorem nearest_mono (q : Nat) {p p' : Nat} (h : p ≤ p') : nearest p q ≤ nearest p' q := by
  rcases Nat.lt_or_eq_of_le (Nat.div_le_div_right (c := q) h) with hlt | heq
  · exact Nat.le_trans (nearest_le_div_succ p q) (Nat.le_trans hlt (div_le_nearest p' q))
  · have hrest : p % q ≤ p' % q := by
      have hp := Nat.div_add_mod p q
      have hp' := Nat.div_add_mod p' q
      rw [heq] at hp
      omega
    unfold nearest
    dsimp only
    rw [heq]
    split_ifs <;> omega

/-! ## Ranks -/

/-- The rank that `p / q` units are rounded to. -/
def rankOfUnits (p q : Nat) : Nat :=
  let step := (p / q).log2 - 52
  step * blockSize + nearest p (q * twoPow step)

theorem rankOfRatio_eq (p q : Nat) : rankOfRatio p q = rankOfUnits (p * unitsPerOne) q :=
  rfl

theorem rankOfUnits_mul_right (p q : Nat) {k : Nat} (hk : 0 < k) :
    rankOfUnits (p * k) (q * k) = rankOfUnits p q := by
  unfold rankOfUnits
  dsimp only
  rw [Nat.mul_div_mul_right _ _ hk, Nat.mul_right_comm, nearest_mul_right _ _ hk]

/-- A number in a block with spacing is at least as large as the first one of the block. -/
theorem le_of_log2_pos {x : Nat} (h : 0 < x.log2 - 52) :
    twoPow (x.log2 - 52) * blockSize ≤ x := by
  have hne : x ≠ 0 := by
    rintro rfl
    simp at h
  have hsplit : x.log2 - 52 + 52 = x.log2 := by omega
  rw [blockSize_eq, ← twoPow_add, hsplit]
  exact Nat.log2_self_le hne

theorem lt_twoPow_log2 (x : Nat) : x < twoPow (x.log2 - 52) * (2 * blockSize) := by
  have hpow : twoPow (x.log2 + 1) ≤ twoPow (x.log2 - 52 + 53) :=
    Nat.pow_le_pow_right Nat.two_pos (by omega)
  rw [two_mul_blockSize, ← twoPow_add]
  exact Nat.lt_of_lt_of_le Nat.lt_log2_self hpow

theorem rankOfUnits_mono {q p p' : Nat} (hq : 0 < q) (h : p ≤ p') :
    rankOfUnits p q ≤ rankOfUnits p' q := by
  have hdiv : p / q ≤ p' / q := Nat.div_le_div_right h
  have hlog : (p / q).log2 ≤ (p' / q).log2 := by
    rw [Nat.log2_eq_log_two, Nat.log2_eq_log_two]
    exact Nat.log_mono_right hdiv
  unfold rankOfUnits
  dsimp only
  generalize hs : (p / q).log2 - 52 = s
  generalize hs' : (p' / q).log2 - 52 = s'
  rcases Nat.lt_or_eq_of_le (show s ≤ s' by omega) with hlt | rfl
  · -- Past the end of a block the ranks go on in the next one.
    have hnearest : nearest p (q * twoPow s) ≤ 2 * blockSize := by
      have hp := lt_twoPow_log2 (p / q)
      rw [hs, Nat.div_lt_iff_lt_mul hq] at hp
      have hle : p ≤ 2 * blockSize * (q * twoPow s) := by
        calc p ≤ twoPow s * (2 * blockSize) * q := Nat.le_of_lt hp
          _ = 2 * blockSize * (q * twoPow s) := by ring
      exact (nearest_mono _ hle).trans_eq (nearest_mul_self _ (Nat.mul_pos hq (twoPow_pos s)))
    have hnearest' : blockSize ≤ nearest p' (q * twoPow s') := by
      have hp' := le_of_log2_pos (x := p' / q) (by omega)
      rw [hs', Nat.le_div_iff_mul_le hq] at hp'
      have hle : blockSize * (q * twoPow s') ≤ p' := by
        calc blockSize * (q * twoPow s') = twoPow s' * blockSize * q := by ring
          _ ≤ p' := hp'
      exact (nearest_mul_self _ (Nat.mul_pos hq (twoPow_pos s'))).symm.trans_le
        (nearest_mono _ hle)
    have hblocks : (s + 1) * blockSize ≤ s' * blockSize := Nat.mul_le_mul_right _ hlt
    rw [Nat.add_mul] at hblocks
    omega
  · exact Nat.add_le_add_left (nearest_mono _ h) _

theorem log2_units {rank : Nat} (h : blockSize ≤ rank) :
    (units rank).log2 = spacing rank + 52 := by
  have hsig : significand rank = blockSize + rank % blockSize := if_neg (Nat.not_lt.2 h)
  have hmod : rank % blockSize < blockSize := Nat.mod_lt _ (twoPow_pos 52)
  have hpos := twoPow_pos (spacing rank)
  have hne : units rank ≠ 0 := by
    rw [units, hsig]
    exact Nat.ne_of_gt (Nat.mul_pos (Nat.add_pos_left (twoPow_pos 52) _) hpos)
  refine (Nat.log2_eq_iff hne).2 ⟨?_, ?_⟩
  · show twoPow (spacing rank + 52) ≤ units rank
    rw [twoPow_add, ← blockSize_eq, units, hsig, Nat.mul_comm]
    exact Nat.mul_le_mul_right _ (Nat.le_add_right _ _)
  · show units rank < twoPow (spacing rank + 53)
    rw [twoPow_add, ← two_mul_blockSize, units, hsig, Nat.mul_comm]
    exact Nat.mul_lt_mul_of_pos_left (by omega) hpos

theorem units_of_lt {rank : Nat} (h : rank < blockSize) : spacing rank = 0 ∧ units rank = rank := by
  have hspacing : spacing rank = 0 := by rw [spacing, Nat.div_eq_of_lt h]
  refine ⟨hspacing, ?_⟩
  rw [units, hspacing, significand, if_pos h]
  exact Nat.mul_one rank

theorem spacing_mul_add_significand (rank : Nat) :
    spacing rank * blockSize + significand rank = rank := by
  rcases Nat.lt_or_ge rank blockSize with hlt | hge
  · rw [(units_of_lt hlt).1, significand, if_pos hlt, Nat.zero_mul, Nat.zero_add]
  · have hdiv : 1 ≤ rank / blockSize := Nat.div_pos hge (twoPow_pos 52)
    rw [significand, if_neg (Nat.not_lt.2 hge), spacing, ← Nat.add_assoc, ← Nat.succ_mul,
      Nat.succ_eq_add_one, Nat.sub_add_cancel hdiv, Nat.div_add_mod']

/-- A magnitude is rounded to itself. -/
theorem rankOfUnits_units (rank : Nat) : rankOfUnits (units rank) 1 = rank := by
  have hstep : (units rank).log2 - 52 = spacing rank := by
    rcases Nat.lt_or_ge rank blockSize with hlt | hge
    · obtain ⟨hspacing, hunits⟩ := units_of_lt hlt
      rw [hunits, hspacing, Nat.sub_eq_zero_iff_le]
      by_cases hzero : rank = 0
      · rw [hzero]
        exact Nat.zero_le _
      · exact Nat.le_of_lt ((Nat.log2_lt hzero).2 hlt)
    · rw [log2_units hge, Nat.add_sub_cancel]
  unfold rankOfUnits
  dsimp only
  rw [Nat.div_one, hstep, Nat.one_mul, units, nearest_mul_self _ (twoPow_pos _)]
  exact spacing_mul_add_significand rank

/-! ## Quotients -/

variable {p q p' q' : Nat}

/-- A larger quotient is rounded to no smaller rank. -/
theorem rankOfRatio_mono (hq : 0 < q) (hq' : 0 < q') (h : p * q' ≤ p' * q) :
    rankOfRatio p q ≤ rankOfRatio p' q' := by
  have hle : p * unitsPerOne * q' ≤ p' * unitsPerOne * q := by
    rw [Nat.mul_right_comm, Nat.mul_right_comm p']
    exact Nat.mul_le_mul_right _ h
  calc rankOfRatio p q = rankOfUnits (p * unitsPerOne * q') (q * q') :=
        (rankOfUnits_mul_right _ q hq').symm
    _ ≤ rankOfUnits (p' * unitsPerOne * q) (q * q') := rankOfUnits_mono (Nat.mul_pos hq hq') hle
    _ = rankOfRatio p' q' := by rw [Nat.mul_comm q, rankOfUnits_mul_right _ q' hq, rankOfRatio_eq]

/-- Equal quotients are rounded to the same rank. -/
theorem rankOfRatio_congr (hq : 0 < q) (hq' : 0 < q') (h : p * q' = p' * q) :
    rankOfRatio p q = rankOfRatio p' q' :=
  Nat.le_antisymm (rankOfRatio_mono hq hq' (Nat.le_of_eq h))
    (rankOfRatio_mono hq' hq (Nat.le_of_eq h.symm))

theorem rankOfRatio_units (rank : Nat) : rankOfRatio (units rank) unitsPerOne = rank := by
  have hscale := rankOfUnits_mul_right (units rank) 1 unitsPerOne_pos
  rw [Nat.one_mul, rankOfUnits_units] at hscale
  exact hscale

end ConfigExpr.Binary64
