/-
  Treewalk.Proofs.ShortestDigits — the decimal that is written for a number.

  The decimals that are read as a number lie between two bounds (`Binary.holds_iff`). The point of all those
  that matter stands at the place of the number's own: one with another point could be replaced by a power
  of ten that is nearer, and has no more digits (`exists_onGrid`). So the grids of one, two, … digits are
  all there is to search, and seventeen digits are enough, since their grid is finer than the bounds are apart
  (`onGrid_seventeen`).

  Proved: the decimal found is read as the number, no decimal of fewer digits is, and of those of as many
  none is nearer (`shortest_spec`).
-/

import Treewalk.Proofs.Numerals

namespace Treewalk.Decimal

/-! ## Bounds -/

section
variable {v w t : ℚ} {n : Nat}

/-- A number that is not zero is what everything between two bounds rounds to. -/
theorem roundsTo_iff (hpos : 0 < n) (hn : n < infinityBits) : RoundsTo v n ↔
    (halfway (n - 1) ≤ v ∧ v ≤ halfway n) ∧ (n % 2 = 1 → halfway (n - 1) < v ∧ v < halfway n) := by
  constructor
  · intro h
    obtain ⟨hbelow, hbelow'⟩ := h.below (n - 1) (by omega)
    obtain ⟨habove, habove'⟩ := h.above n hn (Nat.le_refl _)
    exact ⟨⟨hbelow, habove⟩, fun hodd => ⟨hbelow' hodd, habove' hodd⟩⟩
  · rintro ⟨⟨hbelow, habove⟩, hodd⟩
    refine roundsTo_of_neighbours hn.le (fun m hm => ?_) fun _ => ⟨habove, fun h => (hodd h).2⟩
    obtain rfl : m = n - 1 := by omega
    exact ⟨hbelow, fun h => (hodd h).1⟩

theorem RoundsTo.between (h : RoundsTo v n) (h' : RoundsTo w n) (hv : v ≤ t) (hw : t ≤ w) : RoundsTo t n where
  le := h.le
  below m hm := ⟨(h.below m hm).1.trans hv, fun hodd => ((h.below m hm).2 hodd).trans_le hv⟩
  above m hm hnm := ⟨hw.trans (h'.above m hm hnm).1, fun hodd => hw.trans_lt ((h'.above m hm hnm).2 hodd)⟩

/-- The bounds are further apart than the sixteenth digit of the number is worth. -/
theorem width (hpos : 0 < n) : grid n / 10 ^ 16 < halfway n - halfway (n - 1) := by
  obtain ⟨k, m, rfl, hk, hm⟩ := exists_scaled n
  have hmQ : (m : ℚ) + 1 ≤ 2 ^ 53 := by exact_mod_cast hm
  have hunit : (0 : ℚ) < 2 ^ ((k : ℤ) - 1074) := by positivity
  rw [halfway_scaled hk hm, grid_scaled hk hm.le]
  by_cases hedge : k ≠ 0 ∧ m = 2 ^ 52
  · obtain ⟨hk0, rfl⟩ := hedge
    obtain ⟨l, rfl⟩ := Nat.exists_eq_add_one_of_ne_zero hk0
    rw [halfway_below_twoPow]
    generalize (2 : ℚ) ^ (((l + 1 : ℕ) : ℤ) - 1074) = u at hunit ⊢
    norm_num
    linarith
  · rw [halfway_below (by omega) (by omega) hm]
    norm_num
    nlinarith

end

/-! ## One grid -/

section
variable {a b c d n q : Nat} {e : ℤ} {x y : Decimal}

/-- Fractions are compared crosswise. -/
theorem cross_le (hb : 0 < b) (hd : 0 < d) (u v : Nat) : u * a * d ≤ v * c * b ↔ (u : ℚ) * (a / b) ≤ v * (c / d) := by
  have hbQ : (0 : ℚ) < b := by exact_mod_cast hb
  have hdQ : (0 : ℚ) < d := by exact_mod_cast hd
  rw [← mul_div_assoc, ← mul_div_assoc, div_le_div_iff₀ hbQ hdQ]
  exact_mod_cast Iff.rfl

theorem cross_lt (hb : 0 < b) (hd : 0 < d) (u v : Nat) : u * a * d < v * c * b ↔ (u : ℚ) * (a / b) < v * (c / d) :=
  lt_iff_lt_of_le_iff_le (cross_le hd hb v u)

namespace Binary

/-- The next point of the same grid. -/
theorem value_succ (q : Nat) (e : ℤ) : Decimal.value ⟨q + 1, e⟩ = (q + 1) * 10 ^ e := by
  rw [Decimal.value]
  push_cast
  rfl

theorem quarters_value (b : Binary) : (b.quarters : ℚ) * 2 ^ (b.exponent - 2) = b.value := by
  rw [quarters, value, zpow_sub₀ two_ne_zero]
  push_cast
  ring

theorem upper_value (n : Nat) : ((ofBits n).upper : ℚ) * 2 ^ ((ofBits n).exponent - 2) = halfway n := by
  obtain ⟨k, m, rfl, hk, hm⟩ := exists_scaled n
  rw [ofBits_scaled hk hm, halfway_scaled hk hm, upper, quarters, zpow_sub₀ two_ne_zero]
  push_cast
  ring

theorem lower_value (hpos : 0 < n) : ((ofBits n).lower : ℚ) * 2 ^ ((ofBits n).exponent - 2) = halfway (n - 1) := by
  obtain ⟨k, m, rfl, hk, hm⟩ := exists_scaled n
  rw [ofBits_scaled hk hm, lower, quarters, leastExponent, zpow_sub₀ two_ne_zero]
  split
  next hedge =>
    obtain ⟨hm52, hlow⟩ := hedge
    simp only at hlow
    obtain rfl : m = 2 ^ 52 := hm52
    obtain ⟨l, rfl⟩ : ∃ l, k = l + 1 := ⟨k - 1, by omega⟩
    rw [halfway_below_twoPow]
    norm_num
    ring
  next hplain =>
    have hk' : k = 0 ∨ 2 ^ 52 < m := by
      by_contra hnot
      have hm52 : m = 2 ^ 52 := by omega
      exact hplain ⟨hm52, show (-1074 : ℤ) < (k : ℤ) - 1074 by omega⟩
    have hm2 : 2 ≤ 4 * m := by omega
    rw [halfway_below (by omega) hk' hm, Nat.cast_sub hm2]
    push_cast
    ring

/-- The decimals between the bounds are those that are read as the number. -/
theorem holds_iff (hpos : 0 < n) (hn : n < infinityBits) : (ofBits n).holds x = true ↔ RoundsTo x.value n := by
  obtain ⟨-, hdown⟩ := twoPow_pos ((ofBits n).exponent - 2)
  obtain ⟨-, htenDown⟩ := tenPow_pos x.scale
  have hparity : (ofBits n).significand % 2 = n % 2 := by
    obtain ⟨k, m, rfl, hk, hm⟩ := exists_scaled n
    rw [ofBits_scaled hk hm]
    change m % 2 = _
    omega
  rw [roundsTo_iff hpos hn, holds, quarter, hparity]
  simp only
  split
  next heven =>
    rw [decide_eq_true_iff, cross_le hdown htenDown, cross_le htenDown hdown]
    rw [twoPow_eq, tenPow_eq, lower_value hpos, upper_value]
    exact ⟨fun h => ⟨h, fun hodd => by omega⟩, fun h => h.1⟩
  next hodd =>
    rw [decide_eq_true_iff, cross_lt hdown htenDown, cross_lt htenDown hdown]
    rw [twoPow_eq, tenPow_eq, lower_value hpos, upper_value]
    exact ⟨fun h => ⟨⟨h.1.le, h.2.le⟩, fun _ => h⟩, fun h => h.2 (by omega)⟩

/-- A tenth of the power of ten at the point, and the power itself, are the bounds of the number. -/
theorem point_spec (hpos : 0 < n) : 10 ^ ((ofBits n).point - 1) ≤ grid n ∧ grid n < 10 ^ (ofBits n).point := by
  obtain ⟨-, hdown⟩ := twoPow_pos ((ofBits n).exponent - 2)
  have hdownQ : (0 : ℚ) < (twoPow ((ofBits n).exponent - 2)).2 := by exact_mod_cast hdown
  obtain ⟨v, hv⟩ : ∃ v, v = (ofBits n).quarters * (twoPow ((ofBits n).exponent - 2)).1 * 10 ^ span10 /
      (twoPow ((ofBits n).exponent - 2)).2 := ⟨_, rfl⟩
  have hpoint : (ofBits n).point = (digitChars v).length - (span10 : ℤ) := by
    rw [hv]
    simp only [point, quarter, Nat.pow_eq]
  -- What is cut off behind the point is less than one, and powers of ten are whole.
  have hscaled : (((ofBits n).quarters * (twoPow ((ofBits n).exponent - 2)).1 * 10 ^ span10 : ℕ) : ℚ) /
      (twoPow ((ofBits n).exponent - 2)).2 = grid n * 10 ^ (span10 : ℤ) := by
    rw [grid, ← quarters_value, ← twoPow_eq, zpow_natCast]
    push_cast
    ring
  have hfloor : (v : ℚ) ≤ grid n * 10 ^ (span10 : ℤ) := by
    rw [← hscaled, hv]
    exact Nat.cast_div_le
  have hceil : grid n * 10 ^ (span10 : ℤ) < (v + 1 : ℕ) := by
    rw [← hscaled, div_lt_iff₀ hdownQ, hv]
    exact_mod_cast Nat.lt_mul_of_div_lt (Nat.lt_succ_self _) hdown
  have hone : 1 ≤ grid n * 10 ^ (span10 : ℤ) := by
    have hpow : 2 ^ 1074 ≤ 10 ^ span10 := by decide +kernel
    have hpowQ : (2 : ℚ) ^ 1074 ≤ 10 ^ span10 := by exact_mod_cast hpow
    have hleast := grid_strictMono.monotone (show 1 ≤ n by omega)
    rw [show grid 1 = (2 ^ 1074)⁻¹ from by simpa [zpow_neg] using @grid_scaled 0 1 (.inl rfl) (by omega)] at hleast
    rw [zpow_natCast]
    calc (1 : ℚ) = (2 ^ 1074)⁻¹ * 2 ^ 1074 := (inv_mul_cancel₀ (by positivity)).symm
      _ ≤ grid n * 10 ^ span10 := mul_le_mul hleast hpowQ (by positivity) (grid_nonneg n)
  have hv0 : v ≠ 0 := by
    rintro rfl
    exact absurd hone (not_le.mpr (by simpa using hceil))
  have hlength := length_digitChars_pos v
  have hshift (e : ℤ) : (10 : ℚ) ^ (e - (span10 : ℤ)) * 10 ^ (span10 : ℤ) = 10 ^ e := by
    rw [← zpow_add₀ (by norm_num), sub_add_cancel]
  have htens : (0 : ℚ) < 10 ^ (span10 : ℤ) := by positivity
  rw [hpoint]
  constructor
  · rw [show (digitChars v).length - (span10 : ℤ) - 1 = ((digitChars v).length - 1 : ℕ) - (span10 : ℤ) by omega]
    refine le_of_mul_le_mul_right (le_trans ?_ hfloor) htens
    rw [hshift, zpow_natCast]
    exact_mod_cast pow_length_le hv0
  · refine lt_of_mul_lt_mul_right (hceil.trans_le ?_) htens.le
    rw [hshift, zpow_natCast]
    exact_mod_cast lt_pow_length v

/-- What is tried on a grid are the points beside the number, the one below first unless the other is as near. -/
theorem onGrid_cases (n : Nat) (e : ℤ) : ∃ q : ℕ, q * 10 ^ e ≤ grid n ∧ grid n < (q + 1) * 10 ^ e ∧
    match (ofBits n).onGrid e with
    | some x => (ofBits n).holds x = true ∧
        (x = ⟨q, e⟩ ∧ ((ofBits n).holds ⟨q + 1, e⟩ = true → 2 * (grid n - q * 10 ^ e) ≤ 10 ^ e) ∨
          x = ⟨q + 1, e⟩ ∧ ((ofBits n).holds ⟨q, e⟩ = true → 10 ^ e ≤ 2 * (grid n - q * 10 ^ e)))
    | none => (ofBits n).holds ⟨q, e⟩ = false ∧ (ofBits n).holds ⟨q + 1, e⟩ = false := by
  obtain ⟨-, hdown⟩ := twoPow_pos ((ofBits n).exponent - 2)
  obtain ⟨htenUp, htenDown⟩ := tenPow_pos e
  obtain ⟨a, ha⟩ : ∃ a, (ofBits n).quarters * (twoPow ((ofBits n).exponent - 2)).1 * (tenPow e).2 = a := ⟨_, rfl⟩
  obtain ⟨step, hstep⟩ : ∃ step, (twoPow ((ofBits n).exponent - 2)).2 * (tenPow e).1 = step := ⟨_, rfl⟩
  have hstepQ : (0 : ℚ) < step := by
    rw [← hstep]
    exact_mod_cast Nat.mul_pos hdown htenUp
  have htens : (0 : ℚ) < 10 ^ e := by positivity
  have hscaled : grid n = (a : ℚ) / step * 10 ^ e := by
    have hdownQ : ((twoPow ((ofBits n).exponent - 2)).2 : ℚ) ≠ 0 := by exact_mod_cast hdown.ne'
    have htenUpQ : ((tenPow e).1 : ℚ) ≠ 0 := by exact_mod_cast htenUp.ne'
    have htenDownQ : ((tenPow e).2 : ℚ) ≠ 0 := by exact_mod_cast htenDown.ne'
    rw [grid, ← quarters_value, ← twoPow_eq, ← tenPow_eq, ← ha, ← hstep]
    push_cast
    field_simp
  obtain ⟨q, r, hq, hr, hlt, hsplit⟩ : ∃ q r, a / step = q ∧ a % step = r ∧ r < step ∧ (a : ℚ) = step * q + r :=
    ⟨_, _, rfl, rfl, Nat.mod_lt a (by exact_mod_cast hstepQ), by exact_mod_cast (Nat.div_add_mod a step).symm⟩
  have hrest : grid n - q * 10 ^ e = (r : ℚ) / step * 10 ^ e := by
    rw [hscaled, hsplit]
    field_simp
    ring
  have hr1 : (r : ℚ) / step < 1 := (div_lt_one hstepQ).mpr (by exact_mod_cast hlt)
  have hr0 : (0 : ℚ) ≤ (r : ℚ) / step := by positivity
  have hhalf : step ≤ 2 * r ↔ (1 : ℚ) ≤ 2 * (r / step) := by
    rw [← mul_div_assoc, le_div_iff₀ hstepQ, one_mul]
    exact_mod_cast Iff.rfl
  refine ⟨q, by nlinarith, by nlinarith, ?_⟩
  simp only [onGrid, quarter, ha, hstep, hq, hr]
  cases hbelow : (ofBits n).holds ⟨q, e⟩ <;> cases habove : (ofBits n).holds ⟨q + 1, e⟩
  case false.false => exact ⟨rfl, rfl⟩
  case false.true => exact ⟨habove, .inr ⟨rfl, fun h => absurd h Bool.false_ne_true⟩⟩
  case true.false => exact ⟨hbelow, .inl ⟨rfl, fun h => absurd h Bool.false_ne_true⟩⟩
  case true.true =>
    simp only
    split
    next hup => exact ⟨habove, .inr ⟨rfl, fun _ => by rw [hrest]; nlinarith [hhalf.mp hup]⟩⟩
    next hlow => exact ⟨hbelow, .inl ⟨rfl, fun _ => by rw [hrest]; nlinarith [not_le.mp (mt hhalf.mpr hlow)]⟩⟩

/-- A hit on a grid is read as the number, and no nearer point of the grid is. Without one, none is. -/
theorem onGrid_spec (hpos : 0 < n) (hn : n < infinityBits) (e : ℤ) : match (ofBits n).onGrid e with
    | some x => x.scale = e ∧ RoundsTo x.value n ∧
        ∀ y : Decimal, y.scale = e → RoundsTo y.value n → |grid n - x.value| ≤ |grid n - y.value|
    | none => ∀ y : Decimal, y.scale = e → ¬ RoundsTo y.value n := by
  obtain ⟨q, hlow, hhigh, hcases⟩ := onGrid_cases n e
  have hself := roundsTo_grid hn
  have htens : (0 : ℚ) < 10 ^ e := by positivity
  -- A point of the grid is not nearer than the one beside the number on the same side, which then is read as it too.
  have hside (y : Decimal) (hy : y.scale = e) (h : RoundsTo y.value n) :
      RoundsTo (q * 10 ^ e) n ∧ grid n - q * 10 ^ e ≤ |grid n - y.value| ∨
        RoundsTo ((q + 1) * 10 ^ e) n ∧ (q + 1) * 10 ^ e - grid n ≤ |grid n - y.value| := by
    rcases Nat.lt_or_ge q y.digits with hlt | hle
    · have hvalue : (q + 1) * 10 ^ e ≤ y.value := by
        rw [Decimal.value, hy]
        exact mul_le_mul_of_nonneg_right (by exact_mod_cast hlt) htens.le
      refine .inr ⟨hself.between h hhigh.le hvalue, ?_⟩
      rw [abs_of_nonpos (by linarith)]
      linarith
    · have hvalue : y.value ≤ q * 10 ^ e := by
        rw [Decimal.value, hy]
        exact mul_le_mul_of_nonneg_right (by exact_mod_cast hle) htens.le
      refine .inl ⟨h.between hself hvalue hlow, ?_⟩
      rw [abs_of_nonneg (by linarith)]
      linarith
  cases hgrid : (ofBits n).onGrid e with
  | none =>
    rw [hgrid] at hcases
    intro y hy h
    rcases hside y hy h with ⟨hread, -⟩ | ⟨hread, -⟩
    · exact absurd ((holds_iff hpos hn).mpr (show RoundsTo (Decimal.value ⟨q, e⟩) n from hread)) (by simp [hcases.1])
    · exact absurd ((holds_iff hpos hn).mpr (value_succ q _ ▸ hread)) (by simp [hcases.2])
  | some x =>
    rw [hgrid] at hcases
    obtain ⟨hread, ⟨rfl, hnear⟩ | ⟨rfl, hnear⟩⟩ := hcases
    · refine ⟨rfl, (holds_iff hpos hn).mp hread, fun y hy h => ?_⟩
      change |grid n - q * 10 ^ e| ≤ _
      rw [abs_of_nonneg (by linarith)]
      rcases hside y hy h with ⟨-, hle⟩ | ⟨hother, hle⟩
      · exact hle
      · have := hnear ((holds_iff hpos hn).mpr (value_succ q _ ▸ hother))
        linarith
    · refine ⟨rfl, (holds_iff hpos hn).mp hread, fun y hy h => ?_⟩
      rw [value_succ, abs_of_nonpos (by linarith)]
      rcases hside y hy h with ⟨hother, hle⟩ | ⟨-, hle⟩
      · have := hnear ((holds_iff hpos hn).mpr (show RoundsTo (Decimal.value ⟨q, e⟩) n from hother))
        linarith
      · linarith

/-! ## All grids -/

/-- In place of a decimal that is read as the number there is one with its point where the number has it, with as
    many digits or a power of ten, and not further away. -/
theorem exists_onGrid (hn : n < infinityBits) (hpos : 0 < n) (h : RoundsTo y.value n) (hy : y.digits ≠ 0) : ∃ x : Decimal,
    x.scale = (ofBits n).point - (digitChars y.digits).length ∧ RoundsTo x.value n ∧
      |grid n - x.value| ≤ |grid n - y.value| := by
  obtain ⟨hlow, hhigh⟩ := point_spec hpos
  have hself := roundsTo_grid hn
  obtain ⟨k, hk⟩ := Nat.exists_eq_add_one_of_ne_zero (length_digitChars_pos y.digits).ne'
  have hvalue (i : ℕ) (e : ℤ) : Decimal.value ⟨10 ^ i, e⟩ = 10 ^ (i + e : ℤ) := by
    rw [Decimal.value, zpow_add₀ (by norm_num), zpow_natCast]
    push_cast
    rfl
  rcases lt_trichotomy y.point (ofBits n).point with hlt | heq | hgt
  · -- The least power of ten with this point is between the decimal and the number.
    refine ⟨⟨10 ^ k, (ofBits n).point - (k + 1 : ℕ)⟩, by rw [hk], ?_⟩
    have hbetween : y.value ≤ 10 ^ ((ofBits n).point - 1) :=
      y.value_lt_point.le.trans (zpow_le_zpow_right₀ (by norm_num) (by omega))
    rw [hvalue, show (k : ℤ) + ((ofBits n).point - (k + 1 : ℕ)) = (ofBits n).point - 1 by push_cast; ring]
    refine ⟨h.between hself hbetween hlow, ?_⟩
    rw [abs_of_nonneg (by linarith), abs_of_nonneg (by linarith)]
    linarith
  · exact ⟨y, by rw [← heq, Decimal.point]; ring, h, le_refl _⟩
  · refine ⟨⟨10 ^ (k + 1), (ofBits n).point - (k + 1 : ℕ)⟩, by rw [hk], ?_⟩
    have hbetween : 10 ^ (ofBits n).point ≤ y.value :=
      (zpow_le_zpow_right₀ (by norm_num) (by omega)).trans (point_le_value hy)
    rw [hvalue, show ((k + 1 : ℕ) : ℤ) + ((ofBits n).point - (k + 1 : ℕ)) = (ofBits n).point by ring]
    refine ⟨hself.between h hhigh.le hbetween, ?_⟩
    rw [abs_of_nonpos (by linarith), abs_of_nonpos (by linarith)]
    linarith

/-- Seventeen digits are always enough. -/
theorem onGrid_seventeen (hpos : 0 < n) (hn : n < infinityBits) :
    ∃ x, (ofBits n).onGrid ((ofBits n).point - 17) = some x := by
  obtain ⟨q, hlow, hhigh, hcases⟩ := onGrid_cases n ((ofBits n).point - 17)
  have hwidth := width hpos
  have hfine : (10 : ℚ) ^ ((ofBits n).point - 17) ≤ grid n / 10 ^ 16 := by
    rw [le_div_iff₀ (by positivity), show (10 : ℚ) ^ 16 = 10 ^ (16 : ℤ) by norm_num, ← zpow_add₀ (by norm_num)]
    rw [show (ofBits n).point - 17 + 16 = (ofBits n).point - 1 by ring]
    exact (point_spec hpos).1
  cases hgrid : (ofBits n).onGrid ((ofBits n).point - 17) with
  | some x => exact ⟨x, rfl⟩
  | none =>
    rw [hgrid] at hcases
    have hmiss {v : ℚ} (hlow : halfway (n - 1) < v) (hhigh : v < halfway n) : RoundsTo v n :=
      (roundsTo_iff hpos hn).mpr ⟨⟨hlow.le, hhigh.le⟩, fun _ => ⟨hlow, hhigh⟩⟩
    have hself := grid_lt_halfway n
    have hself' := halfway_lt_grid (n - 1)
    rw [show n - 1 + 1 = n by omega] at hself'
    have hdown : q * 10 ^ ((ofBits n).point - 17) ≤ halfway (n - 1) := by
      refine not_lt.mp fun hlt => ?_
      have hread : RoundsTo (Decimal.value ⟨q, (ofBits n).point - 17⟩) n := hmiss hlt (hlow.trans_lt hself)
      exact absurd ((holds_iff hpos hn).mpr hread) (by simp [hcases.1])
    have hup : halfway n ≤ (q + 1) * 10 ^ ((ofBits n).point - 17) := by
      refine not_lt.mp fun hlt => ?_
      have hread := value_succ q _ ▸ hmiss (hself'.trans hhigh) hlt
      exact absurd ((holds_iff hpos hn).mpr hread) (by simp [hcases.2])
    -- The two points beside the number are as far apart as the bounds at least, but the grid is finer.
    linarith

/-- The search ends with the first hit. -/
theorem search_spec {b : Binary} {tries i k : Nat} {x : Decimal} (hi : i < tries)
    (hx : b.onGrid (b.point - (k + i : ℕ)) = some x) :
    ∃ j, k ≤ j ∧ b.onGrid (b.point - j) = some (b.search tries k) ∧
      ∀ l, k ≤ l → l < j → b.onGrid (b.point - l) = none := by
  induction tries generalizing k i with
  | zero => omega
  | succ tries ih =>
    cases hfirst : b.onGrid (b.point - k) with
    | some y =>
      refine ⟨k, Nat.le_refl k, ?_, fun l hl hlk => by omega⟩
      rw [search, hfirst, Option.getD_some]
    | none =>
      obtain ⟨i', rfl⟩ : ∃ i', i = i' + 1 := by
        refine ⟨i - 1, ?_⟩
        rcases Nat.eq_zero_or_pos i with rfl | hpos
        · rw [Nat.add_zero, hfirst] at hx
          cases hx
        · omega
      rw [show k + (i' + 1) = k + 1 + i' by omega] at hx
      obtain ⟨j, hj, hhit, hnone⟩ := ih (by omega) hx
      refine ⟨j, by omega, ?_, fun l hl hlj => ?_⟩
      · rw [search, hfirst, Option.getD_none, hhit]
      · rcases Nat.eq_or_lt_of_le hl with rfl | hlt
        · exact hfirst
        · exact hnone l hlt hlj

/-- The decimal found is the shortest that is read as the number, and of those the nearest. -/
theorem shortest_spec (hpos : 0 < n) (hn : n < infinityBits) : RoundsTo (ofBits n).shortest.value n ∧
    (ofBits n).shortest.digits % 10 ≠ 0 ∧ ∀ y : Decimal, RoundsTo y.value n →
      (digitChars (ofBits n).shortest.digits).length ≤ (digitChars y.digits).length ∧
        ((digitChars (ofBits n).shortest.digits).length = (digitChars y.digits).length →
          |grid n - (ofBits n).shortest.value| ≤ |grid n - y.value|) := by
  obtain ⟨x, hx⟩ := onGrid_seventeen hpos hn
  obtain ⟨j, hj, hhit, hnone⟩ := @search_spec (ofBits n) 17 16 1 x (by omega) hx
  obtain ⟨d, hd⟩ : ∃ d, (ofBits n).search 17 1 = d := ⟨_, rfl⟩
  rw [hd] at hhit
  have hfound := onGrid_spec hpos hn ((ofBits n).point - j)
  rw [hhit] at hfound
  obtain ⟨hscale, hread, hnear⟩ := hfound
  have hnonzero {y : Decimal} (h : RoundsTo y.value n) : y.digits ≠ 0 := by
    intro hzero
    rw [Decimal.value, hzero, Nat.cast_zero, zero_mul, ← grid_zero] at h
    exact hpos.ne' (h.unique (roundsTo_grid (by decide)))
  have hvalue : (ofBits n).shortest.value = d.value := by rw [shortest, hd, trim_value]
  -- No decimal with fewer digits is read as the number: the grid of as many digits would have had a hit.
  have hfewest {y : Decimal} (h : RoundsTo y.value n) : j ≤ (digitChars y.digits).length := by
    by_contra hlt
    obtain ⟨x, hxscale, hxread, -⟩ := exists_onGrid hn hpos h (hnonzero h)
    have hmiss := onGrid_spec hpos hn ((ofBits n).point - (digitChars y.digits).length)
    rw [hnone _ (length_digitChars_pos _) (not_le.mp hlt)] at hmiss
    exact hmiss x hxscale hxread
  have hlength : (digitChars (ofBits n).shortest.digits).length ≤ j := by
    rw [shortest, hd]
    refine length_trim_le hj (hnonzero hread) (not_lt.mp fun hlarge => ?_)
    -- The power of ten at the point is nearer than what has more digits.
    have hhigh := (point_spec hpos).2
    have htens : (0 : ℚ) < 10 ^ ((ofBits n).point - j) := by positivity
    have hpower : Decimal.value ⟨10 ^ j, (ofBits n).point - j⟩ = 10 ^ (ofBits n).point := by
      rw [Decimal.value, Nat.cast_pow, Nat.cast_ofNat, ← zpow_natCast, ← zpow_add₀ (by norm_num), add_sub_cancel]
    have hbeyond : 10 ^ (ofBits n).point < d.value := by
      rw [← hpower, Decimal.value, Decimal.value, hscale]
      exact mul_lt_mul_of_pos_right (by exact_mod_cast hlarge) htens
    have hle := hnear ⟨10 ^ j, (ofBits n).point - j⟩ rfl
      (hpower ▸ (roundsTo_grid hn).between hread hhigh.le hbeyond.le)
    rw [hpower, abs_of_nonpos (by linarith), abs_of_nonpos (by linarith)] at hle
    linarith
  refine ⟨hvalue ▸ hread, ?_, fun y h => ⟨hlength.trans (hfewest h), fun hsame => ?_⟩⟩
  · rw [shortest, hd]
    exact trim_digits (hnonzero hread)
  · obtain rfl : j = (digitChars y.digits).length := le_antisymm (hfewest h) (hsame ▸ hlength)
    obtain ⟨x, hxscale, hxread, hle⟩ := exists_onGrid hn hpos h (hnonzero h)
    rw [hvalue]
    exact (hnear x hxscale hxread).trans hle

end Binary

end

end Treewalk.Decimal
