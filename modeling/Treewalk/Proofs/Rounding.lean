/-
  Treewalk.Proofs.Rounding — the number nearest to a fraction, in exact arithmetic.

  The bits of the binary64 numbers that have no sign count them in order: `grid n` is the one with the
  bits `n`. `RoundsTo v n`: on this grid `n` is nearest to `v`, halfway between two neighbours the even
  one; from halfway between the last number and the next power of two on, it is infinity.

  Proved: the grid is `m · 2 ^ e` with a significand of at most 53 bits (`grid_scaled`) and rises with `n`
  (`grid_strictMono`), each number rounds to one place on it (`RoundsTo.unique`), and this is what
  is worked out in whole numbers (`nearestBits_eq_iff`).
-/

import Mathlib.Algebra.Order.Field.Power
import Mathlib.Data.Nat.Log
import Mathlib.Tactic.FieldSimp
import Mathlib.Tactic.Linarith
import Mathlib.Tactic.Positivity
import Mathlib.Tactic.Ring
import Treewalk.Decimal.Shortest

namespace Treewalk.Decimal

/-! ## The grid -/

namespace Binary

/-- The number itself. -/
def value (b : Binary) : ℚ := b.significand * 2 ^ b.exponent

/-- The number with these bits. -/
def ofBits (n : Nat) : Binary :=
  if n / 2 ^ 52 = 0 then ⟨n % 2 ^ 52, leastExponent⟩
  else ⟨n % 2 ^ 52 + 2 ^ 52, ((n / 2 ^ 52 : Nat) : Int) - 1 + leastExponent⟩

theorem ofFloat_eq (x : Float) : ofFloat x = ofBits (x.toBits.toNat % 2 ^ 63) := rfl

end Binary

/-- The numbers without a sign, in order. Behind the last one stands the next power of two. -/
def grid (n : Nat) : ℚ := (Binary.ofBits n).value

/-- Halfway between two neighbours. -/
def halfway (n : Nat) : ℚ := (grid n + grid (n + 1)) / 2

section
variable {k m n : Nat}

/-- The bits of a number with 53 significant bits, or fewer if its exponent is the least there is. -/
theorem ofBits_scaled (h : k = 0 ∨ 2 ^ 52 ≤ m) (hm : m < 2 ^ 53) : Binary.ofBits (k * 2 ^ 52 + m) = ⟨m, k - 1074⟩ := by
  unfold Binary.ofBits leastExponent
  by_cases hsmall : m < 2 ^ 52
  · obtain rfl : k = 0 := h.resolve_right (by omega)
    rw [if_pos (by omega), Nat.zero_mul, Nat.zero_add, Nat.mod_eq_of_lt hsmall]
    rfl
  · have hfield : (k * 2 ^ 52 + m) / 2 ^ 52 = k + 1 := by omega
    have hfraction : (k * 2 ^ 52 + m) % 2 ^ 52 + 2 ^ 52 = m := by omega
    rw [hfield, hfraction, if_neg (by omega)]
    congr 1
    omega

theorem exists_scaled (n : Nat) : ∃ k m, n = k * 2 ^ 52 + m ∧ (k = 0 ∨ 2 ^ 52 ≤ m) ∧ m < 2 ^ 53 :=
  ⟨n / 2 ^ 52 - 1, n - (n / 2 ^ 52 - 1) * 2 ^ 52, by omega, by omega, by omega⟩

/-- A significand of 54 bits, the least there is, counts as one of 53 with the next exponent. -/
theorem grid_scaled (h : k = 0 ∨ 2 ^ 52 ≤ m) (hm : m ≤ 2 ^ 53) : grid (k * 2 ^ 52 + m) = m * 2 ^ ((k : ℤ) - 1074) := by
  rcases Nat.lt_or_eq_of_le hm with hm | rfl
  · rw [grid, ofBits_scaled h hm, Binary.value]
  · have hsplit : k * 2 ^ 52 + 2 ^ 53 = (k + 1) * 2 ^ 52 + 2 ^ 52 := by omega
    rw [hsplit, grid, ofBits_scaled (.inr (Nat.le_refl _)) (by omega), Binary.value]
    have hexponent : ((k + 1 : ℕ) : ℤ) - 1074 = 1 + ((k : ℤ) - 1074) := by push_cast; ring
    simp only [hexponent, zpow_add₀ (two_ne_zero (α := ℚ)), zpow_one]
    push_cast
    ring

@[simp] theorem grid_zero : grid 0 = 0 := by simpa using @grid_scaled 0 0 (.inl rfl) (by omega)

/-- Powers of two, those below the least exponent apart, have nothing in the fraction. -/
theorem grid_twoPow (k : Nat) : grid ((k + 1) * 2 ^ 52) = 2 ^ ((k : ℤ) - 1022) := by
  rw [show (k + 1) * 2 ^ 52 = k * 2 ^ 52 + 2 ^ 52 by omega, grid_scaled (.inr (Nat.le_refl _)) (by omega)]
  rw [show (k : ℤ) - 1022 = (52 : ℕ) + ((k : ℤ) - 1074) by push_cast; ring, zpow_add₀ two_ne_zero, zpow_natCast]
  push_cast
  rfl

/-- From one number to the next it is one unit of the last place. -/
theorem grid_succ (h : k = 0 ∨ 2 ^ 52 ≤ m) (hm : m < 2 ^ 53) :
    grid (k * 2 ^ 52 + m + 1) = grid (k * 2 ^ 52 + m) + 2 ^ ((k : ℤ) - 1074) := by
  rw [Nat.add_assoc, grid_scaled (by omega) (by omega), grid_scaled h (by omega)]
  push_cast
  ring

theorem grid_strictMono : StrictMono grid := by
  refine strictMono_nat_of_lt_succ fun n => ?_
  obtain ⟨k, m, rfl, hk, hm⟩ := exists_scaled n
  rw [grid_succ hk hm]
  exact lt_add_of_pos_right _ (by positivity)

theorem grid_nonneg (n : Nat) : 0 ≤ grid n := by
  simpa using grid_strictMono.monotone (Nat.zero_le n)

theorem grid_lt_halfway (n : Nat) : grid n < halfway n := by
  have := grid_strictMono (Nat.lt_succ_self n)
  unfold halfway
  simp only [Nat.succ_eq_add_one] at this
  linarith

theorem halfway_lt_grid (n : Nat) : halfway n < grid (n + 1) := by
  have := grid_strictMono (Nat.lt_succ_self n)
  unfold halfway
  simp only [Nat.succ_eq_add_one] at this
  linarith

theorem halfway_strictMono : StrictMono halfway :=
  strictMono_nat_of_lt_succ fun n => (halfway_lt_grid n).trans (grid_lt_halfway (n + 1))

theorem halfway_scaled (h : k = 0 ∨ 2 ^ 52 ≤ m) (hm : m < 2 ^ 53) :
    halfway (k * 2 ^ 52 + m) = (m + 1 / 2) * 2 ^ ((k : ℤ) - 1074) := by
  rw [halfway, grid_succ h hm, grid_scaled h (by omega)]
  ring

/-- Halfway to the number below, with the same exponent. -/
theorem halfway_below (hpos : 0 < m) (h : k = 0 ∨ 2 ^ 52 < m) (hm : m < 2 ^ 53) :
    halfway (k * 2 ^ 52 + m - 1) = (m - 1 / 2) * 2 ^ ((k : ℤ) - 1074) := by
  rw [show k * 2 ^ 52 + m - 1 = k * 2 ^ 52 + (m - 1) by omega, halfway_scaled (by omega) (by omega), Nat.cast_pred hpos]
  ring

/-- Below a power of two the exponent is less by one, and so the step is half as wide. -/
theorem halfway_below_twoPow (k : Nat) :
    halfway ((k + 1) * 2 ^ 52 + 2 ^ 52 - 1) = (2 ^ 52 - 1 / 4) * 2 ^ (((k + 1 : ℕ) : ℤ) - 1074) := by
  rw [show (k + 1) * 2 ^ 52 + 2 ^ 52 - 1 = k * 2 ^ 52 + (2 ^ 53 - 1) by omega, halfway_scaled (.inr (by omega)) (by omega)]
  rw [show ((k + 1 : ℕ) : ℤ) - 1074 = (k : ℤ) - 1074 + 1 by push_cast; ring, zpow_add_one₀ two_ne_zero]
  norm_num
  ring

end

/-! ## Rounding -/

/-- The place on the grid that a number is nearest to. -/
structure RoundsTo (v : ℚ) (n : Nat) : Prop where
  le : n ≤ infinityBits
  below : ∀ m < n, halfway m ≤ v ∧ (n % 2 = 1 → halfway m < v)
  above : ∀ m < infinityBits, n ≤ m → v ≤ halfway m ∧ (n % 2 = 1 → v < halfway m)

section
variable {v w : ℚ} {n n' : Nat}

theorem RoundsTo.mono (h : RoundsTo v n) (h' : RoundsTo w n') (hle : v ≤ w) : n ≤ n' := by
  by_contra hlt
  push Not at hlt
  have hfinite := h.le
  obtain ⟨habove, hstrict⟩ := h'.above n' (by omega) (Nat.le_refl _)
  obtain ⟨hbelow, hstrict'⟩ := h.below n' hlt
  -- Both are halfway, so both places are even and have one between them.
  have hv : v = halfway n' := le_antisymm (hle.trans habove) hbelow
  have hw : w = halfway n' := le_antisymm habove (hv ▸ hle)
  have heven : n' % 2 = 0 := by
    by_contra hodd
    exact absurd (hstrict (by omega)) (not_lt.mpr hw.ge)
  have heven' : n % 2 = 0 := by
    by_contra hodd
    exact absurd (hstrict' (by omega)) (not_lt.mpr hv.le)
  have hbetween := (h.below (n' + 1) (by omega)).1
  rw [hv] at hbetween
  exact absurd (halfway_strictMono (Nat.lt_succ_self n')) (not_lt.mpr hbetween)

theorem RoundsTo.unique (h : RoundsTo v n) (h' : RoundsTo v n') : n = n' :=
  le_antisymm (h.mono h' le_rfl) (h'.mono h le_rfl)

/-- The neighbours decide. -/
theorem roundsTo_of_neighbours (hle : n ≤ infinityBits)
    (hbelow : ∀ m, n = m + 1 → halfway m ≤ v ∧ (n % 2 = 1 → halfway m < v))
    (habove : n < infinityBits → v ≤ halfway n ∧ (n % 2 = 1 → v < halfway n)) : RoundsTo v n where
  le := hle
  below m hm := by
    obtain ⟨l, rfl⟩ : ∃ l, n = l + 1 := ⟨n - 1, by omega⟩
    have hmono := halfway_strictMono.monotone (show m ≤ l by omega)
    obtain ⟨hl, hodd⟩ := hbelow l rfl
    exact ⟨hmono.trans hl, fun h => hmono.trans_lt (hodd h)⟩
  above m hm hnm := by
    have hmono := halfway_strictMono.monotone hnm
    obtain ⟨hn, hodd⟩ := habove (by omega)
    exact ⟨hn.trans hmono, fun h => (hodd h).trans_le hmono⟩

/-- A number of the grid is its own place. -/
theorem roundsTo_grid (hn : n < infinityBits) : RoundsTo (grid n) n := by
  refine roundsTo_of_neighbours (Nat.le_of_lt hn) ?_ fun _ => ?_
  · rintro m rfl
    exact ⟨(halfway_lt_grid m).le, fun _ => halfway_lt_grid m⟩
  · exact ⟨(grid_lt_halfway n).le, fun _ => grid_lt_halfway n⟩

/-- What is not above a number does not round to one above it. -/
theorem RoundsTo.le_of_le (h : RoundsTo v n) {m : Nat} (hm : m < infinityBits) (hv : v ≤ grid m) : n ≤ m :=
  h.mono (roundsTo_grid hm) hv

theorem RoundsTo.ge_of_ge (h : RoundsTo v n) {m : Nat} (hm : m < infinityBits) (hv : grid m ≤ v) : m ≤ n :=
  (roundsTo_grid hm).mono h hv

/-- Less than halfway to the next number it is still this one. -/
theorem roundsTo_of_lt (hn : n < infinityBits) (hle : grid n ≤ v) (hlt : v < halfway n) : RoundsTo v n := by
  refine roundsTo_of_neighbours (Nat.le_of_lt hn) ?_ fun _ => ⟨hlt.le, fun _ => hlt⟩
  rintro m rfl
  have := halfway_lt_grid m
  exact ⟨(this.trans_le hle).le, fun _ => this.trans_le hle⟩

/-- What is too large for the grid rounds to infinity. -/
theorem roundsTo_infinity (h : grid infinityBits ≤ v) : RoundsTo v infinityBits := by
  refine roundsTo_of_neighbours (Nat.le_refl _) ?_ fun hlt => absurd hlt (Nat.lt_irrefl _)
  intro m hm
  have := halfway_lt_grid m
  rw [← hm] at this
  exact ⟨(this.trans_le h).le, fun _ => this.trans_le h⟩

/-! ## In whole numbers -/

/-- The whole number `r` is nearest to `t`, halfway between two the even one. -/
structure NearestNat (t : ℚ) (r : Nat) : Prop where
  below : (r : ℚ) - 1 / 2 ≤ t ∧ (r % 2 = 1 → (r : ℚ) - 1 / 2 < t)
  above : t ≤ r + 1 / 2 ∧ (r % 2 = 1 → t < r + 1 / 2)

theorem NearestNat.le {t : ℚ} {r b : Nat} (h : NearestNat t r) (ht : t < b) : r ≤ b := by
  have hlt : (r : ℚ) < b + 1 := by linarith [h.below.1]
  exact Nat.lt_succ_iff.mp (by exact_mod_cast hlt)

theorem NearestNat.ge {t : ℚ} {r b : Nat} (h : NearestNat t r) (ht : b ≤ t) : b ≤ r := by
  have hlt : (b : ℚ) < r + 1 := by linarith [h.above.1]
  exact Nat.lt_succ_iff.mp (by exact_mod_cast hlt)

/-- A significand rounded to a whole number gives the place on the grid. One of 54 bits carries into the
    exponent by itself, and what is behind the last number is infinity. -/
theorem roundsTo_scaled {k r : Nat} {t : ℚ} (hlow : k = 0 ∨ 2 ^ 52 ≤ t) (hhigh : t < 2 ^ 53)
    (hr : NearestNat t r) :
    RoundsTo (t * 2 ^ ((k : ℤ) - 1074)) (min infinityBits (k * 2 ^ 52 + r)) := by
  have hunit : (0 : ℚ) < 2 ^ ((k : ℤ) - 1074) := by positivity
  generalize hu : (2 : ℚ) ^ ((k : ℤ) - 1074) = u at hunit
  have hrhigh : r ≤ 2 ^ 53 := hr.le (by exact_mod_cast hhigh)
  have hrlow : k = 0 ∨ 2 ^ 52 ≤ r := hlow.imp_right fun hlow => hr.ge (by exact_mod_cast hlow)
  obtain ⟨⟨hbelow, hbelow'⟩, habove, habove'⟩ := hr
  have hparity : (k * 2 ^ 52 + r) % 2 = r % 2 := by omega
  -- The neighbours of the place, before infinity is taken into account.
  have hdown : ∀ m, k * 2 ^ 52 + r = m + 1 → halfway m ≤ t * u ∧ (r % 2 = 1 → halfway m < t * u) := by
    intro m hm
    by_cases hcarry : k ≠ 0 ∧ r = 2 ^ 52
    · obtain ⟨hk, rfl⟩ := hcarry
      have hgrid : grid (k * 2 ^ 52 + 2 ^ 52) = (2 ^ 52 : ℕ) * u := by
        rw [grid_scaled (.inr (Nat.le_refl _)) (by omega), hu]
      have hlt := halfway_lt_grid m
      rw [← hm, hgrid] at hlt
      have hle : ((2 ^ 52 : ℕ) : ℚ) * u ≤ t * u := by
        refine mul_le_mul_of_nonneg_right ?_ hunit.le
        exact_mod_cast hlow.resolve_left hk
      exact ⟨(hlt.trans_le hle).le, fun _ => hlt.trans_le hle⟩
    · obtain ⟨s, rfl⟩ : ∃ s, r = s + 1 := ⟨r - 1, by omega⟩
      obtain rfl : m = k * 2 ^ 52 + s := by omega
      rw [halfway_scaled (by omega) (by omega), hu]
      push_cast at hbelow hbelow'
      exact ⟨mul_le_mul_of_nonneg_right (by linarith) hunit.le,
        fun hodd => mul_lt_mul_of_pos_right (by linarith [hbelow' hodd]) hunit⟩
  have hup : t * u ≤ halfway (k * 2 ^ 52 + r) ∧ (r % 2 = 1 → t * u < halfway (k * 2 ^ 52 + r)) := by
    rcases Nat.lt_or_eq_of_le hrhigh with hr | rfl
    · rw [halfway_scaled hrlow hr, hu]
      exact ⟨mul_le_mul_of_nonneg_right habove hunit.le, fun hodd => mul_lt_mul_of_pos_right (habove' hodd) hunit⟩
    · have hgrid : grid (k * 2 ^ 52 + 2 ^ 53) = (2 ^ 53 : ℕ) * u := by rw [grid_scaled hrlow (Nat.le_refl _), hu]
      have hlt : t * u < grid (k * 2 ^ 52 + 2 ^ 53) := by
        rw [hgrid]
        refine mul_lt_mul_of_pos_right ?_ hunit
        exact_mod_cast hhigh
      have := hlt.trans (grid_lt_halfway _)
      exact ⟨this.le, fun _ => this⟩
  rcases Nat.lt_or_ge (k * 2 ^ 52 + r) infinityBits with hfinite | hinfinite
  · rw [Nat.min_eq_right hfinite.le]
    refine roundsTo_of_neighbours hfinite.le ?_ fun _ => ?_
    · rwa [hparity]
    · rwa [hparity]
  · rw [Nat.min_eq_left hinfinite]
    refine roundsTo_of_neighbours (Nat.le_refl _) (fun m hm => ?_) fun hlt => absurd hlt (Nat.lt_irrefl _)
    obtain ⟨l, hl⟩ : ∃ l, k * 2 ^ 52 + r = l + 1 := ⟨k * 2 ^ 52 + r - 1, by omega⟩
    have hmono := halfway_strictMono.monotone (show m ≤ l by omega)
    refine ⟨hmono.trans (hdown l hl).1, fun hodd => ?_⟩
    simp [infinityBits] at hodd

end

section
variable {a b c d n : Nat} {e : ℤ}

theorem nearestNat_roundHalfEven (hb : 0 < b) : NearestNat ((a : ℚ) / b) (roundHalfEven a b) := by
  have hbQ : (0 : ℚ) < b := by exact_mod_cast hb
  obtain ⟨q, r, hq, hr, hlt, rfl⟩ : ∃ q r, a / b = q ∧ a % b = r ∧ r < b ∧ a = b * q + r :=
    ⟨_, _, rfl, rfl, Nat.mod_lt a hb, (Nat.div_add_mod a b).symm⟩
  obtain ⟨t, ht⟩ : ∃ t : ℚ, t = r / b := ⟨_, rfl⟩
  have hvalue : ((b * q + r : ℕ) : ℚ) / b = q + t := by
    rw [ht]
    push_cast
    field_simp
  have ht0 : 0 ≤ t := ht ▸ by positivity
  have ht1 : t < 1 := ht ▸ (div_lt_one hbQ).mpr (by exact_mod_cast hlt)
  have hhalf : (1 / 2 < t ↔ b < 2 * r) ∧ (t = 1 / 2 ↔ 2 * r = b) := by
    rw [ht, lt_div_iff₀ hbQ, div_eq_iff hbQ.ne']
    constructor
    · rw [← Nat.cast_lt (α := ℚ)]
      push_cast
      constructor <;> intro h <;> linarith
    · rw [← Nat.cast_inj (R := ℚ)]
      push_cast
      constructor <;> intro h <;> linarith
  simp only [hvalue, roundHalfEven, hq, hr]
  split
  next hup =>
    have hge : 1 / 2 ≤ t := hup.elim (fun h => (hhalf.1.mpr h).le) fun h => (hhalf.2.mpr h.1).ge
    refine ⟨⟨?_, fun hodd => ?_⟩, ?_, fun _ => ?_⟩ <;> push_cast
    · linarith
    · have hgt : 1 / 2 < t := hhalf.1.mpr (hup.resolve_right fun h => by omega)
      linarith
    · linarith
    · linarith
  next hdown =>
    have hle : t ≤ 1 / 2 := not_lt.mp fun h => hdown (.inl (hhalf.1.mp h))
    refine ⟨⟨?_, fun _ => ?_⟩, ?_, fun hodd => ?_⟩
    · linarith
    · linarith
    · linarith
    · have hne : t ≠ 1 / 2 := fun h => hdown (.inr ⟨hhalf.2.mp h, hodd⟩)
      linarith [lt_of_le_of_ne hle hne]

theorem pow_toNat_div {x : ℚ} (hx : x ≠ 0) (e : ℤ) : x ^ e.toNat / x ^ (-e).toNat = x ^ e := by
  rw [← zpow_natCast, ← zpow_natCast, ← zpow_sub₀ hx]
  congr 1
  omega

/-- A power of two as a fraction. -/
theorem twoPow_eq (e : ℤ) : ((twoPow e).1 : ℚ) / (twoPow e).2 = 2 ^ e := by
  have h := pow_toNat_div (x := 2) two_ne_zero e
  exact_mod_cast h

/-- A power of ten as a fraction. -/
theorem tenPow_eq (e : ℤ) : ((tenPow e).1 : ℚ) / (tenPow e).2 = 10 ^ e := by
  have h := pow_toNat_div (x := 10) (by norm_num) e
  exact_mod_cast h

theorem twoPow_pos (e : ℤ) : 0 < (twoPow e).1 ∧ 0 < (twoPow e).2 :=
  ⟨Nat.pow_pos (by omega), Nat.pow_pos (by omega)⟩

theorem tenPow_pos (e : ℤ) : 0 < (tenPow e).1 ∧ 0 < (tenPow e).2 :=
  ⟨Nat.pow_pos (by omega), Nat.pow_pos (by omega)⟩

theorem log2_bounds (hn : 0 < n) : (2 : ℚ) ^ (n.log2 : ℤ) ≤ n ∧ (n : ℚ) < 2 ^ ((n.log2 : ℤ) + 1) := by
  have hlow := Nat.log2_self_le hn.ne'
  have hhigh := Nat.lt_log2_self (n := n)
  rw [zpow_add_one₀ two_ne_zero, zpow_natCast]
  rw [pow_succ] at hhigh
  exact ⟨by exact_mod_cast hlow, by exact_mod_cast hhigh⟩

/-- The exponent leaves 53 bits in front of the point, unless it is the least there is. -/
theorem lastBit_spec (ha : 0 < a) (hb : 0 < b) : -1074 ≤ lastBit a b ∧ (a : ℚ) / b < 2 ^ 53 * 2 ^ lastBit a b ∧
    (lastBit a b = -1074 ∨ 2 ^ 52 * 2 ^ lastBit a b ≤ (a : ℚ) / b) := by
  obtain ⟨halow, hahigh⟩ := log2_bounds ha
  obtain ⟨hblow, hbhigh⟩ := log2_bounds hb
  have haQ : (0 : ℚ) < a := by exact_mod_cast ha
  have hbQ : (0 : ℚ) < b := by exact_mod_cast hb
  obtain ⟨e, he⟩ : ∃ e : ℤ, e = (a.log2 : ℤ) - (b.log2 : ℤ) - 52 := ⟨_, rfl⟩
  have hpow (i : ℕ) (j : ℤ) : (2 : ℚ) ^ i * 2 ^ j = 2 ^ (i + j) := by rw [zpow_add₀ two_ne_zero, zpow_natCast]
  have hhigh : (a : ℚ) / b < 2 ^ 53 * 2 ^ e := by
    rw [div_lt_iff₀ hbQ, hpow]
    calc (a : ℚ) < 2 ^ ((a.log2 : ℤ) + 1) := hahigh
      _ = 2 ^ (((53 : ℕ) : ℤ) + e) * 2 ^ (b.log2 : ℤ) := by rw [← zpow_add₀ two_ne_zero]; congr 1; omega
      _ ≤ 2 ^ (((53 : ℕ) : ℤ) + e) * b := mul_le_mul_of_nonneg_left hblow (by positivity)
  have hlow : 2 ^ 51 * 2 ^ e < (a : ℚ) / b := by
    rw [lt_div_iff₀ hbQ, hpow]
    calc (2 : ℚ) ^ (((51 : ℕ) : ℤ) + e) * b < 2 ^ (((51 : ℕ) : ℤ) + e) * 2 ^ ((b.log2 : ℤ) + 1) :=
          mul_lt_mul_of_pos_left hbhigh (by positivity)
      _ = 2 ^ (a.log2 : ℤ) := by rw [← zpow_add₀ two_ne_zero]; congr 1; omega
      _ ≤ a := halow
  have hstep : (2 : ℚ) ^ 53 * 2 ^ (e - 1) = 2 ^ 52 * 2 ^ e ∧ (2 : ℚ) ^ 52 * 2 ^ (e - 1) = 2 ^ 51 * 2 ^ e := by
    rw [zpow_sub_one₀ two_ne_zero]
    constructor <;> ring
  -- The estimate by logarithms may be one too large.
  have hfirst : a * (twoPow e).2 < Nat.pow 2 52 * (b * (twoPow e).1) ↔ (a : ℚ) / b < 2 ^ 52 * 2 ^ e := by
    obtain ⟨hup, hdown⟩ := twoPow_pos e
    have hdownQ : (0 : ℚ) < (twoPow e).2 := by exact_mod_cast hdown
    rw [← twoPow_eq, div_lt_iff₀ hbQ, mul_div_assoc', div_mul_eq_mul_div, lt_div_iff₀ hdownQ, ← Nat.cast_lt (α := ℚ)]
    push_cast
    rw [show (2 : ℚ) ^ 52 * (twoPow e).1 * b = 2 ^ 52 * (b * (twoPow e).1) by ring]
    norm_num
  obtain ⟨f, hf, hfhigh, hflow⟩ : ∃ f, lastBit a b = max (-1074) f ∧
      (a : ℚ) / b < 2 ^ 53 * 2 ^ f ∧ 2 ^ 52 * 2 ^ f ≤ (a : ℚ) / b := by
    unfold lastBit
    simp only [← he, leastExponent]
    split
    next h => exact ⟨e - 1, rfl, hstep.1 ▸ hfirst.mp h, (hstep.2 ▸ hlow).le⟩
    next h => exact ⟨e, rfl, hhigh, not_lt.mp fun hlt => h (hfirst.mpr hlt)⟩
  rw [hf]
  refine ⟨le_max_left _ _, hfhigh.trans_le ?_, ?_⟩
  · refine mul_le_mul_of_nonneg_left ?_ (by positivity)
    exact zpow_le_zpow_right₀ (by norm_num) (le_max_right _ _)
  · rcases le_total f (-1074) with hle | hle
    · exact .inl (max_eq_left hle)
    · exact .inr (by rwa [max_eq_right hle])

/-- The bits are those of the nearest number. -/
theorem roundsTo_nearestBits (hb : 0 < b) : RoundsTo ((a : ℚ) / b) (nearestBits a b) := by
  rcases Nat.eq_zero_or_pos a with rfl | ha
  · have hzero : nearestBits 0 b = 0 := rfl
    rw [hzero, Nat.cast_zero, zero_div, ← grid_zero]
    exact roundsTo_grid (by decide)
  · obtain ⟨hleast, hhigh, hlow⟩ := lastBit_spec ha hb
    have hbits : nearestBits a b = min infinityBits ((lastBit a b + 1074).toNat * 2 ^ 52 +
        roundHalfEven (a * (twoPow (lastBit a b)).2) (b * (twoPow (lastBit a b)).1)) := by
      rw [nearestBits, if_neg ha.ne']
      rfl
    rw [hbits]
    generalize lastBit a b = e at hleast hhigh hlow
    obtain ⟨k, rfl⟩ : ∃ k : ℕ, e = (k : ℤ) - 1074 := ⟨(e + 1074).toNat, by omega⟩
    have hround : NearestNat ((a : ℚ) / b / 2 ^ ((k : ℤ) - 1074))
        (roundHalfEven (a * (twoPow ((k : ℤ) - 1074)).2) (b * (twoPow ((k : ℤ) - 1074)).1)) := by
      obtain ⟨hup, hdown⟩ := twoPow_pos ((k : ℤ) - 1074)
      have h := nearestNat_roundHalfEven (a := a * (twoPow ((k : ℤ) - 1074)).2) (Nat.mul_pos hb hup)
      rwa [Nat.cast_mul, Nat.cast_mul, mul_div_mul_comm, ← inv_div ((twoPow _).1 : ℚ), twoPow_eq, ← div_eq_mul_inv] at h
    have hunit : (0 : ℚ) < 2 ^ ((k : ℤ) - 1074) := by positivity
    have hlow' : k = 0 ∨ 2 ^ 52 ≤ (a : ℚ) / b / 2 ^ ((k : ℤ) - 1074) :=
      hlow.imp (fun h => by omega) fun h => (le_div_iff₀ hunit).mpr h
    have h := roundsTo_scaled hlow' ((div_lt_iff₀ hunit).mpr hhigh) hround
    rw [show ((k : ℤ) - 1074 + 1074).toNat = k by omega]
    rwa [div_mul_cancel₀ _ hunit.ne'] at h

theorem nearestBits_eq_iff (hb : 0 < b) : nearestBits a b = n ↔ RoundsTo ((a : ℚ) / b) n := by
  constructor
  · rintro rfl
    exact roundsTo_nearestBits hb
  · exact fun h => (roundsTo_nearestBits hb).unique h

/-! ## Scaling -/

theorem grid_shift (hn : 2 ^ 52 ≤ n) (k : Nat) : grid (n + k * 2 ^ 52) = grid n * 2 ^ k := by
  obtain ⟨l, m, rfl, hl, hm⟩ := exists_scaled n
  have hlow : 2 ^ 52 ≤ m := by omega
  rw [show l * 2 ^ 52 + m + k * 2 ^ 52 = (l + k) * 2 ^ 52 + m by ring]
  rw [grid_scaled (.inr hlow) hm.le, grid_scaled (.inr hlow) hm.le]
  rw [mul_assoc, ← zpow_natCast, ← zpow_add₀ two_ne_zero]
  congr 2
  push_cast
  ring

theorem halfway_shift (hn : 2 ^ 52 ≤ n) (k : Nat) : halfway (n + k * 2 ^ 52) = halfway n * 2 ^ k := by
  rw [halfway, halfway, grid_shift hn, show n + k * 2 ^ 52 + 1 = n + 1 + k * 2 ^ 52 by omega, grid_shift (by omega)]
  ring

/-- A power of two goes into the exponent. -/
theorem RoundsTo.shift {v : ℚ} (h : RoundsTo v n) (hn : 2 ^ 52 < n) (k : Nat) :
    RoundsTo (v * 2 ^ k) (min infinityBits (n + k * 2 ^ 52)) := by
  have hpow : (0 : ℚ) < 2 ^ k := by positivity
  obtain ⟨hbelow, hbelow'⟩ := h.below (n - 1) (by omega)
  have hdown : halfway (n - 1 + k * 2 ^ 52) = halfway (n - 1) * 2 ^ k := halfway_shift (by omega) k
  rcases Nat.lt_or_ge (n + k * 2 ^ 52) infinityBits with hfinite | hinfinite
  · rw [Nat.min_eq_right hfinite.le]
    obtain ⟨habove, habove'⟩ := h.above n (by omega) (Nat.le_refl _)
    refine roundsTo_of_neighbours hfinite.le (fun m hm => ?_) fun _ => ?_
    · obtain rfl : m = n - 1 + k * 2 ^ 52 := by omega
      rw [hdown]
      exact ⟨mul_le_mul_of_nonneg_right hbelow hpow.le, fun hodd => mul_lt_mul_of_pos_right (hbelow' (by omega)) hpow⟩
    · rw [halfway_shift hn.le]
      exact ⟨mul_le_mul_of_nonneg_right habove hpow.le, fun hodd => mul_lt_mul_of_pos_right (habove' (by omega)) hpow⟩
  · rw [Nat.min_eq_left hinfinite]
    refine roundsTo_of_neighbours (Nat.le_refl _) (fun m hm => ⟨?_, fun hodd => ?_⟩) fun hlt => absurd hlt (Nat.lt_irrefl _)
    · have hmono := halfway_strictMono.monotone (show m ≤ n - 1 + k * 2 ^ 52 by omega)
      exact hmono.trans (hdown ▸ mul_le_mul_of_nonneg_right hbelow hpow.le)
    · simp [infinityBits] at hodd

/-- Whole numbers of up to 53 bits are on the grid. -/
theorem exists_grid_natCast (hn : n < 2 ^ 53) : ∃ j < infinityBits, grid j = n ∧ (0 < n → 2 ^ 52 ≤ j) := by
  rcases Nat.eq_zero_or_pos n with rfl | hpos
  · exact ⟨0, by decide, by simp, fun h => absurd h (Nat.lt_irrefl _)⟩
  have hlog : n.log2 ≤ 52 := Nat.lt_succ_iff.mp ((Nat.log2_lt hpos.ne').mpr hn)
  obtain ⟨i, hi⟩ : ∃ i, n.log2 + i = 52 := ⟨52 - n.log2, by omega⟩
  have hlow : 2 ^ 52 ≤ n * 2 ^ i := by
    rw [← hi, pow_add]
    exact Nat.mul_le_mul_right _ (Nat.log2_self_le hpos.ne')
  have hhigh : n * 2 ^ i < 2 ^ 53 := by
    rw [show 53 = n.log2 + 1 + i by omega, pow_add]
    exact Nat.mul_lt_mul_of_pos_right Nat.lt_log2_self (by positivity)
  refine ⟨(n.log2 + 1022) * 2 ^ 52 + n * 2 ^ i, by rw [infinityBits]; omega, ?_, fun _ => by omega⟩
  have hexponent : ((n.log2 + 1022 : ℕ) : ℤ) - 1074 = -(i : ℤ) := by omega
  rw [grid_scaled (.inr hlow) hhigh.le, hexponent, zpow_neg, zpow_natCast]
  push_cast
  field_simp

/-- No finite number is nearer than the one a number rounds to, and none is as near unless that one is even. -/
theorem RoundsTo.nearest {v : ℚ} (h : RoundsTo v n) (hn : n < infinityBits) (m : Nat) :
    |v - grid n| ≤ |v - grid m| ∧ (|v - grid n| = |v - grid m| → m = n ∨ n % 2 = 0) := by
  rcases Nat.lt_trichotomy m n with hlt | rfl | hlt
  · obtain ⟨hbelow, hbelow'⟩ := h.below (n - 1) (by omega)
    have hle := grid_strictMono.monotone (show m ≤ n - 1 by omega)
    have hlt' := grid_strictMono hlt
    have hhalf : 2 * halfway (n - 1) = grid (n - 1) + grid n := by
      rw [halfway, show n - 1 + 1 = n by omega]
      ring
    rw [abs_of_nonneg (show 0 ≤ v - grid m by linarith), abs_le]
    refine ⟨by constructor <;> linarith, fun heq => .inr ?_⟩
    by_contra hodd
    have hstrict := hbelow' (by omega)
    rcases abs_cases (v - grid n) with ⟨habs, -⟩ | ⟨habs, -⟩ <;> rw [habs] at heq <;> linarith
  · exact ⟨le_refl _, fun _ => .inl rfl⟩
  · obtain ⟨habove, habove'⟩ := h.above n hn (Nat.le_refl _)
    have hle := grid_strictMono.monotone (Nat.succ_le_of_lt hlt)
    have hlt' := grid_strictMono hlt
    have hhalf : 2 * halfway n = grid n + grid (n + 1) := by
      rw [halfway]
      ring
    simp only [Nat.succ_eq_add_one] at hle
    rw [abs_of_nonpos (show v - grid m ≤ 0 by linarith), abs_le]
    refine ⟨by constructor <;> linarith, fun heq => .inr ?_⟩
    by_contra hodd
    have hstrict := habove' (by omega)
    rcases abs_cases (v - grid n) with ⟨habs, -⟩ | ⟨habs, -⟩ <;> rw [habs] at heq <;> linarith

end

end Treewalk.Decimal
