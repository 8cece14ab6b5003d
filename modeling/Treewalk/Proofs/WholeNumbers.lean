/-
  Treewalk.Proofs.WholeNumbers — numbers that count.

  Below `2 ^ 53` each whole number is a binary64 number, and so are its neighbours: what is read as it is no
  further than a half away. So no decimal with fewer digits is read as it, and none with as many is as near
  as itself (`shortest_whole`).

  Proved: the text of a number is the numeral of such a whole number if and only if it is that number,
  whatever the sign of zero (`numberText_eq_repr`).
-/

import Treewalk.Proofs.NumericStrings

namespace Treewalk.Decimal

open NumberText (signed)

/-! ## Digits -/

section
variable {i j m n : Nat} {d : Decimal} {v : ℚ} {x : Float}

theorem length_digitChars_mono (h : m ≤ n) : (digitChars m).length ≤ (digitChars n).length :=
  (length_digitChars_le_iff (length_digitChars_pos n)).mpr (h.trans_lt (lt_pow_length n))

/-- A power of ten is written by its zeros. -/
theorem digitChars_mul_pow (hn : 0 < n) (k : Nat) : digitChars (n * 10 ^ k) = digitChars n ++ List.replicate k '0' := by
  induction k with
  | zero => simp
  | succ k ih =>
    have happend := Nat.toDigits_append_toDigits (b := 10) (n := n * 10 ^ k) (d := 0) (by omega) (by positivity) (by omega)
    rw [show n * 10 ^ (k + 1) = 10 * (n * 10 ^ k) + 0 by ring, digitChars, ← happend]
    change digitChars (n * 10 ^ k) ++ ['0'] = _
    rw [ih, List.append_assoc, List.replicate_succ']

/-! ## What is read as a whole number -/

theorem exists_grid_of_le (hn : n ≤ 2 ^ 53) : ∃ j < infinityBits, grid j = n := by
  rcases Nat.lt_or_eq_of_le hn with hlt | rfl
  · obtain ⟨j, hj, hgrid, -⟩ := exists_grid_natCast hlt
    exact ⟨j, hj, hgrid⟩
  · refine ⟨(1075 + 1) * 2 ^ 52, by decide, ?_⟩
    rw [grid_twoPow]
    norm_num

/-- What is nearest to a whole number, and not to the one before it or the one behind it, is no further than a
    half away. -/
theorem RoundsTo.near_whole (h : RoundsTo v j) (hj : j < infinityBits) (hgrid : grid j = i) (hpos : 0 < i)
    (hi : i < 2 ^ 53) : |v - i| ≤ 1 / 2 := by
  have hside {k : Nat} (hk : k ≤ 2 ^ 53) : |v - i| ≤ |v - k| := by
    obtain ⟨m, -, hm⟩ := exists_grid_of_le hk
    have hle := (h.nearest hj m).1
    rwa [hgrid, hm] at hle
  have hbelow := hside (show i - 1 ≤ 2 ^ 53 by omega)
  have habove := hside (show i + 1 ≤ 2 ^ 53 from hi)
  rw [Nat.cast_pred hpos] at hbelow
  rw [Nat.cast_succ] at habove
  rcases le_total v i with hle | hle
  · rw [abs_of_nonpos (by linarith)] at hbelow ⊢
    rcases abs_cases (v - (i - 1 : ℚ)) with ⟨hw, -⟩ | ⟨hw, -⟩ <;> linarith
  · rw [abs_of_nonneg (by linarith)] at habove ⊢
    rcases abs_cases (v - (i + 1 : ℚ)) with ⟨hw, -⟩ | ⟨hw, -⟩ <;> linarith

/-- A decimal without a scale is a whole number, and one with digits behind the point has at least as many of
    them as the whole number near it. -/
theorem shortest_whole (hj : j < infinityBits) (hgrid : grid j = i) (hpos : 0 < i) (hi : i < 2 ^ 53) :
    (Binary.ofBits j).shortest.value = i := by
  have hjpos : 0 < j := by
    rw [← grid_strictMono.lt_iff_lt, grid_zero, hgrid]
    exact_mod_cast hpos
  obtain ⟨hread, -, hleast⟩ := Binary.shortest_spec hjpos hj
  have hnear := hread.near_whole hj hgrid hpos hi
  -- The whole number itself, without its zeros.
  obtain ⟨y, hy⟩ : ∃ y : Decimal, y = Decimal.trim ⟨i, 0⟩ := ⟨_, rfl⟩
  have hvalue : y.value = i := by rw [hy, trim_value, value, zpow_zero, mul_one]
  have hshort : (digitChars y.digits).length ≤ (digitChars i).length := by
    obtain ⟨k, hk⟩ := trim_digits_dvd ⟨i, 0⟩
    rw [← hy] at hk
    simp only at hk
    refine length_digitChars_mono ?_
    rw [hk]
    exact Nat.le_mul_of_pos_right _ (by positivity)
  obtain ⟨hfewest, hnearest⟩ := hleast y (by rw [hvalue, ← hgrid]; exact roundsTo_grid hj)
  generalize (Binary.ofBits j).shortest = d at hread hnear hfewest hnearest ⊢
  rcases Int.lt_or_le d.scale 0 with hscale | hscale
  · have hdigits : i ≤ d.digits := by
      have htenth : d.value ≤ d.digits / 10 := by
        rw [value, div_eq_mul_inv, ← zpow_neg_one]
        exact mul_le_mul_of_nonneg_left (zpow_le_zpow_right₀ (by norm_num) (by omega)) (Nat.cast_nonneg _)
      have hone : (1 : ℚ) ≤ i := by exact_mod_cast hpos
      have hlow := (abs_le.mp hnear).1
      have hle : (i : ℚ) ≤ d.digits := by linarith
      exact_mod_cast hle
    have hsame := le_antisymm hfewest (hshort.trans (length_digitChars_mono hdigits))
    have hle := hnearest hsame
    rw [hgrid, hvalue, sub_self, abs_zero, abs_nonpos_iff] at hle
    linarith
  · obtain ⟨k, hk⟩ : ∃ k : ℕ, d.value = k := ⟨d.digits * 10 ^ d.scale.toNat, by
      rw [value, show d.scale = (d.scale.toNat : ℤ) by omega, zpow_natCast]
      push_cast
      rfl⟩
    rw [hk] at hnear ⊢
    have hlt : |((k : ℤ) - i : ℤ)| < 1 := by
      have hlt : |((k : ℚ) - i)| < 1 := hnear.trans_lt (by norm_num)
      exact_mod_cast hlt
    have heq := Int.abs_lt_one_iff.mp hlt
    exact_mod_cast sub_eq_zero.mp heq

/-! ## Texts -/

/-- With no zero at the end of its digits a whole number has them all in front of the point, and its zeros behind. -/
theorem layout_whole (hvalue : d.value = i) (htrim : d.digits % 10 ≠ 0) (hi : i < 2 ^ 53) :
    Style.console.layout d = digitChars i := by
  have hdigits : d.digits ≠ 0 := fun hzero => htrim (by rw [hzero])
  have hscale : 0 ≤ d.scale := by
    by_contra hneg
    obtain ⟨k, hk⟩ : ∃ k : ℕ, d.scale = -((k + 1 : ℕ) : ℤ) := ⟨(-d.scale - 1).toNat, by omega⟩
    have htens : d.digits = i * 10 ^ (k + 1) := by
      rw [value, hk, zpow_neg, zpow_natCast, mul_inv_eq_iff_eq_mul₀ (by positivity)] at hvalue
      exact_mod_cast hvalue
    rw [htens, pow_succ, ← mul_assoc, Nat.mul_mod_left] at htrim
    exact htrim rfl
  obtain ⟨k, hk⟩ := Int.eq_ofNat_of_zero_le hscale
  have htext : i = d.digits * 10 ^ k := by
    rw [value, hk, zpow_natCast] at hvalue
    exact_mod_cast hvalue.symm
  have hpoint : d.point = (digitChars d.digits).length + k := by rw [point, hk]
  have hfew : d.point ≤ 21 := by
    have hlow := point_le_value hdigits
    have hhigh : (i : ℚ) < 10 ^ (16 : ℤ) := by
      have hlt : i < 10 ^ 16 := hi.trans (by norm_num)
      rw [zpow_ofNat]
      exact_mod_cast hlt
    rw [hvalue] at hlow
    have := (zpow_lt_zpow_iff_right₀ (show (1 : ℚ) < 10 by norm_num)).mp (hlow.trans_lt hhigh)
    omega
  have hplain : Style.console.isPlain d.point = true := by
    simp only [Style.isPlain, Style.console, Option.all_some, Bool.and_eq_true, decide_eq_true_iff]
    omega
  rw [Style.layout, if_pos hplain, Style.plain, if_pos (by omega), htext, digitChars_mul_pow (Nat.pos_of_ne_zero hdigits)]
  simp [Style.console, Style.zeros, hpoint]

theorem numberText_whole (h : Sized .positive j x) (hgrid : grid j = i) (hi : i < 2 ^ 53) : numberText x = i.repr := by
  have hpos : 0 < i := by
    have hlt := grid_strictMono h.pos
    rw [grid_zero, hgrid] at hlt
    exact_mod_cast hlt
  obtain ⟨-, htrim, -⟩ := Binary.shortest_spec h.pos h.lt
  have hvalue := shortest_whole h.lt hgrid hpos hi
  rw [numberText_eq h, if_neg (by simp [h.lt_zero_iff]), List.nil_append, ofFloat, ofFloat_sized h,
    layout_whole hvalue htrim hi]
  rfl

/-- A numeral is read as the number it denotes. -/
theorem read_repr (hi : i < 2 ^ 53) : ∃ j < infinityBits, grid j = i ∧ NumberText.read i.repr = number j := by
  have hdigits : Lexer.Digits (digitChars i) := fun c hc => isDigit_of_mem_digitChars hc
  have hblank : ∀ c ∈ digitChars i, Text.isBlank c = false := fun c hc => by
    have hrange := Char.isDigit_iff_toNat.mp (isDigit_of_mem_digitChars hc)
    simp only [Char.reduceToNat] at hrange
    exact Text.isBlank_visible (by omega) (by omega)
  have hliteral : Literal (digitChars i) i := by
    have h := Literal.intro (.whole (digitChars_ne_nil i) hdigits) .none
    rwa [List.append_nil, zpow_zero, mul_one, natOf_digitChars] at h
  have htrim : Text.trim i.repr.toList = [] ++ digitChars i := by
    rw [Nat.toList_repr]
    exact Text.trim_eq_self hblank
  obtain ⟨k, hk, hread⟩ := NumberText.read_decimal .none hliteral htrim
  obtain ⟨j, hj, hgrid, -⟩ := exists_grid_natCast hi
  rw [← hgrid] at hk
  exact ⟨j, hj, hgrid, hk.unique (roundsTo_grid hj) ▸ hread⟩

/-- A number is written as a numeral if and only if it is the whole number. -/
theorem numberText_eq_repr (hi : i < 2 ^ 53) : numberText x = i.repr ↔ toRat? x = some (i : ℚ) := by
  constructor
  · intro htext
    obtain ⟨j, hj, hgrid, hread⟩ := read_repr hi
    rw [← htext, read_text] at hread
    split at hread
    next hzero =>
      obtain ⟨negative, rfl⟩ := beq_zero_iff.mp hzero
      obtain rfl : 0 = j := (number_inj (Nat.zero_le _) hj.le).mp hread
      rw [toRat?_zero, ← hgrid, grid_zero]
    next hzero =>
      have hpos : 0 < j := by
        rw [Nat.pos_iff_ne_zero]
        rintro rfl
        rw [hread] at hzero
        exact hzero rfl
      rw [hread, toRat?_sized (sized_number hpos hj), hgrid]
  · intro hvalue
    cases kind x with
    | nan =>
      rw [toRat?_nan] at hvalue
      cases hvalue
    | infinite negative =>
      rw [toRat?_infinite] at hvalue
      cases hvalue
    | zero negative =>
      rw [toRat?_zero] at hvalue
      obtain rfl : 0 = i := by exact_mod_cast Option.some.inj hvalue
      rw [numberText_zero]
      rfl
    | @sized s j x h =>
      rw [toRat?_sized h] at hvalue
      cases s with
      | positive => exact numberText_whole h (Option.some.inj hvalue) hi
      | negative =>
        have hlt := grid_strictMono h.pos
        have hneg : -grid j = (i : ℚ) := Option.some.inj hvalue
        have hnat : (0 : ℚ) ≤ i := Nat.cast_nonneg i
        rw [grid_zero] at hlt
        linarith

theorem toRat?_ofNat (hn : n < 2 ^ 53) : toRat? (ofNat n) = some (n : ℚ) := by
  obtain ⟨j, hj, hgrid, -⟩ := exists_grid_natCast hn
  rw [ofNat_eq_number (hgrid ▸ roundsTo_grid hj), ← hgrid]
  rcases Nat.eq_zero_or_pos j with rfl | hpos
  · rw [grid_zero]
    exact toRat?_zero false
  · exact toRat?_sized (sized_number hpos hj)

end

end Treewalk.Decimal
