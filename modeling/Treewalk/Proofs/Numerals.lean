/-
  Treewalk.Proofs.Numerals — decimal numerals: what they denote, and the number they are read as.

  `d.value` is the number that a decimal denotes, exactly. Proved: the point stands at the least power of ten
  above it (`value_lt_point`), zeros at the end of the digits can go (`trim_value`), and the number that
  a decimal is read as is the nearest one, the shortcuts for very small and very large ones included
  (`toFloat_rounds`).
-/

import Treewalk.Proofs.Rounding.Arithmetic
import Treewalk.Value.Convert

namespace Treewalk

namespace Text

theorem isBlank_visible {c : Char} (hlow : 0x20 < c.toNat) (hhigh : c.toNat < 0x7f) : isBlank c = false := by
  simp only [isBlank, Bool.or_eq_false_iff, Bool.and_eq_false_iff, decide_eq_false_iff_not, beq_eq_false_iff_ne]
  omega

/-- There is nothing to trim where there are no blanks at the ends. -/
theorem trim_eq_self {cs : List Char} (h : ∀ c ∈ cs, isBlank c = false) : trim cs = cs := by
  have hkeep : ∀ ds : List Char, (∀ c ∈ ds, isBlank c = false) → ds.dropWhile isBlank = ds := by
    intro ds hds
    cases ds with
    | nil => rfl
    | cons c ds => rw [List.dropWhile_cons_of_neg (by simp [hds c List.mem_cons_self])]
  rw [trim, hkeep cs h, hkeep cs.reverse (by simpa using h), List.reverse_reverse]

end Text

namespace Decimal

/-- The number that is denoted, exactly. -/
def value (d : Decimal) : ℚ := d.digits * 10 ^ d.scale

/-! ## Digits -/

section
variable {n k : Nat} {c : Char} {cs ds : List Char}

theorem natOf_eq (cs : List Char) : natOf cs = Nat.ofDigitChars 10 cs 0 := rfl

theorem natOf_digitChars (n : Nat) : natOf (digitChars n) = n := Nat.ofDigitChars_ten_toDigits

theorem natOf_append (cs ds : List Char) : natOf (cs ++ ds) = 10 ^ ds.length * natOf cs + natOf ds := by
  rw [natOf_eq, Nat.ofDigitChars_append, Nat.ofDigitChars_eq_ofDigitChars_zero]
  rfl

theorem natOf_zeros (n : Nat) : natOf (List.replicate n '0') = 0 := by
  rw [natOf_eq, Nat.ofDigitChars_replicate_zero, Nat.mul_zero]

theorem isDigit_of_mem_digitChars (hc : c ∈ digitChars n) : c.isDigit = true :=
  Nat.isDigit_of_mem_toDigits (by omega) (by omega) hc

theorem digitChars_ne_nil (n : Nat) : digitChars n ≠ [] := Nat.toDigits_ne_nil

theorem length_digitChars_le_iff (hk : 0 < k) : (digitChars n).length ≤ k ↔ n < 10 ^ k :=
  Nat.length_toDigits_le_iff (by omega) hk

theorem length_digitChars_pos (n : Nat) : 0 < (digitChars n).length := Nat.length_toDigits_pos

/-- A number that is not zero has no zero in front. -/
theorem pow_length_le (hn : n ≠ 0) : 10 ^ ((digitChars n).length - 1) ≤ n := by
  have hpos := length_digitChars_pos n
  rcases Nat.eq_zero_or_pos ((digitChars n).length - 1) with hone | hmore
  · rw [hone]
    omega
  · by_contra hlt
    have := (length_digitChars_le_iff hmore).mpr (not_le.mp hlt)
    omega

theorem lt_pow_length (n : Nat) : n < 10 ^ (digitChars n).length :=
  (length_digitChars_le_iff (length_digitChars_pos n)).mp (Nat.le_refl _)

end

/-! ## Places -/

section
variable {d : Decimal}

theorem value_nonneg (d : Decimal) : 0 ≤ d.value := by
  unfold value
  positivity

/-- The number is below ten to the place of its point. -/
theorem value_lt_point (d : Decimal) : d.value < 10 ^ d.point := by
  have hlt : (d.digits : ℚ) < 10 ^ ((digitChars d.digits).length : ℤ) := by
    rw [zpow_natCast]
    exact_mod_cast lt_pow_length d.digits
  rw [point, zpow_add₀ (by norm_num), value]
  exact mul_lt_mul_of_pos_right hlt (by positivity)

/-- The number is not below a tenth of that. -/
theorem point_le_value (h : d.digits ≠ 0) : 10 ^ (d.point - 1) ≤ d.value := by
  have hpos := length_digitChars_pos d.digits
  have hle : (10 : ℚ) ^ (((digitChars d.digits).length - 1 : ℕ) : ℤ) ≤ d.digits := by
    rw [zpow_natCast]
    exact_mod_cast pow_length_le h
  rw [show d.point - 1 = ((digitChars d.digits).length - 1 : ℕ) + d.scale by rw [point]; omega]
  rw [zpow_add₀ (by norm_num), value]
  exact mul_le_mul_of_nonneg_right hle (by positivity)

theorem trim_value (d : Decimal) : d.trim.value = d.value := by
  fun_induction trim d with
  | case1 d h ih =>
    obtain ⟨q, hq⟩ : ∃ q, d.digits = 10 * q := ⟨d.digits / 10, by omega⟩
    rw [ih, value, value, hq, Nat.mul_div_cancel_left q (by omega), zpow_add_one₀ (by norm_num)]
    push_cast
    ring
  | case2 => rfl

theorem trim_digits (h : d.digits ≠ 0) : d.trim.digits % 10 ≠ 0 := by
  fun_induction trim d with
  | case1 d h ih => exact ih (by simp only; omega)
  | case2 d hnot => exact fun hzero => hnot ⟨h, hzero⟩

/-- Only zeros at the end go. -/
theorem trim_digits_dvd (d : Decimal) : ∃ i, d.digits = d.trim.digits * 10 ^ i := by
  fun_induction trim d with
  | case1 d h ih =>
    obtain ⟨i, hi⟩ := ih
    simp only at hi
    exact ⟨i + 1, by rw [pow_succ, ← mul_assoc, ← hi]; omega⟩
  | case2 d => exact ⟨0, by simp⟩

/-- A power of ten is down to one digit, so that no more digits are left than there are zeros in it. -/
theorem length_trim_le {j : Nat} (hj : 0 < j) (h : d.digits ≠ 0) (hle : d.digits ≤ 10 ^ j) :
    (digitChars d.trim.digits).length ≤ j := by
  rw [length_digitChars_le_iff hj]
  obtain ⟨i, hi⟩ := trim_digits_dvd d
  rcases Nat.eq_zero_or_pos i with rfl | hipos
  · refine lt_of_le_of_ne (by omega) fun heq => trim_digits h ?_
    rw [heq]
    exact Nat.mod_eq_zero_of_dvd (dvd_pow_self 10 hj.ne')
  · have htens : 10 ≤ 10 ^ i := Nat.le_self_pow hipos.ne' 10
    have hpos : 0 < 10 ^ j := by positivity
    nlinarith

/-! ## Reading -/

/-- What is below ten to this power is nearer to zero than to the least number. -/
theorem pow_lt_halfway : (10 : ℚ) ^ (-327 : ℤ) < halfway 0 := by
  have hpow : 2 ^ 1075 < 10 ^ 327 := by decide +kernel
  have hpowQ : (2 : ℚ) ^ 1075 < 10 ^ 327 := by exact_mod_cast hpow
  have hhalf : halfway 0 = (2 ^ 1075)⁻¹ := by
    have h := @halfway_scaled 0 0 (.inl rfl) (by omega)
    rw [Nat.zero_mul, Nat.zero_add, Nat.cast_zero, Nat.cast_zero, zero_add, zero_sub, zpow_neg, zpow_ofNat] at h
    rw [h, pow_succ 2 1074, mul_inv_rev, one_div]
  rw [hhalf, zpow_neg, zpow_ofNat]
  exact inv_strictAnti₀ (by positivity) hpowQ

/-- What is not below ten to this power is infinite. -/
theorem infinity_le_pow : grid infinityBits ≤ 10 ^ (310 : ℤ) := by
  have hpow : 2 ^ 1024 ≤ 10 ^ 310 := by decide +kernel
  have hpowQ : (2 : ℚ) ^ 1024 ≤ 10 ^ 310 := by exact_mod_cast hpow
  rw [show infinityBits = (2046 + 1) * 2 ^ 52 by decide, grid_twoPow, zpow_ofNat]
  refine le_trans (le_of_eq ?_) hpowQ
  rw [show ((2046 : ℕ) : ℤ) - 1022 = (1024 : ℕ) by norm_num, zpow_natCast]

/-- A decimal is read as the number nearest to it. -/
theorem toFloat_rounds (d : Decimal) : ∃ j, RoundsTo d.value j ∧ d.toFloat = number j := by
  unfold toFloat
  split
  next hsmall =>
    refine ⟨0, roundsTo_of_lt (by decide) (by simpa using d.value_nonneg) ?_, rfl⟩
    rcases hsmall with hzero | hpoint
    · rw [value, hzero, Nat.cast_zero, zero_mul, ← grid_zero]
      exact grid_lt_halfway 0
    · refine (d.value_lt_point.trans_le ?_).trans pow_lt_halfway
      exact zpow_le_zpow_right₀ (by norm_num) (by omega)
  next hnot =>
    push Not at hnot
    split
    next hlarge =>
      have hvalue : (10 : ℚ) ^ (310 : ℤ) ≤ d.value :=
        (zpow_le_zpow_right₀ (by norm_num) (by omega)).trans (point_le_value hnot.1)
      have hread : nearestBits (Nat.pow 10 310) 1 = infinityBits := by decide +kernel
      exact ⟨infinityBits, roundsTo_infinity (infinity_le_pow.trans hvalue), by rw [nearest_eq, hread]⟩
    next =>
      have hpos := (tenPow_pos d.scale).2
      refine ⟨_, ?_, rfl⟩
      have h := roundsTo_nearestBits (a := d.digits * (tenPow d.scale).1) hpos
      rwa [Nat.cast_mul, mul_div_assoc, tenPow_eq] at h

end

end Decimal

end Treewalk
