/-
  Treewalk.Proofs.Rounding.Arithmetic — sums and products of numbers are the exact ones, rounded.

  `number n` is the number with the bits `n`. Proved: its fields are those of the grid
  (`unpack_number`), the sum and the product of two numbers without a sign are what the exact ones round to
  (`number_add`, `number_mul`), and every finite number but zero is one of these or the opposite of one
  (`exists_sized`, `Sized.eq_number`, `Sized.eq_neg_number`).
-/

import Mathlib
import Treewalk.Proofs.Rounding

namespace Treewalk.Decimal

open Float.Model Float.Model.UnpackedFloat

/-- The number with these bits. -/
def number (n : Nat) : Float := Float.ofBits (UInt64.ofNat n)

theorem nearest_eq (a b : Nat) : nearest a b = number (nearestBits a b) := rfl

/-- No finite number is nearer to `v`, and if another is as near then this one is even. -/
def Nearest (v : ℚ) (x : Float) : Prop :=
  ∃ n < infinityBits, x = number n ∧ ∀ m < infinityBits,
    |v - grid n| ≤ |v - grid m| ∧ (|v - grid n| = |v - grid m| → m = n ∨ n % 2 = 0)

/-! ## Fields -/

/-- The bit of a sign. -/
def signBit : Sign → Nat
  | .negative => 2 ^ 63
  | .positive => 0

section
variable {n k m : Nat} {s : Sign}

theorem toNat_append {v w : Nat} (a : BitVec v) (b : BitVec w) : (a ++ b).toNat = a.toNat * 2 ^ w + b.toNat := by
  rw [BitVec.toNat_append, ← Nat.shiftLeft_add_eq_or_of_lt b.isLt, Nat.shiftLeft_eq]

theorem toNat_packComponents (s : Sign) (e : BitVec 11) (f : BitVec 52) :
    (packComponents .binary64 s e f).toNat = signBit s + e.toNat * 2 ^ 52 + f.toNat := by
  change (s.toBitVec ++ e ++ f).toNat = _
  rw [toNat_append, toNat_append]
  cases s <;> simp only [Sign.toBitVec, signBit, BitVec.toNat_ofNat] <;> omega

theorem toNat_unpackExponent (b : BitVec 64) : (@unpackExponent .binary64 b).toNat = b.toNat / 2 ^ 52 % 2 ^ 11 := by
  rw [unpackExponent_def, BitVec.extractLsb'_toNat, Nat.shiftRight_eq_div_pow]

theorem toNat_unpackMantissa (b : BitVec 64) : (@unpackMantissa .binary64 b).toNat = b.toNat % 2 ^ 52 := by
  rw [unpackMantissa_def, BitVec.extractLsb'_toNat, Nat.shiftRight_eq_div_pow, Nat.pow_zero, Nat.div_one]

theorem toNat_unpackSign (b : BitVec 64) : (@unpackSign .binary64 b).toNat = b.toNat / 2 ^ 63 % 2 ^ 1 := by
  rw [unpackSign_def, BitVec.extractLsb'_toNat, Nat.shiftRight_eq_div_pow]
  rfl

theorem toNat_packedInfinity (s : Sign) : (packedInfinity .binary64 s).toNat = signBit s + infinityBits := by
  rw [packedInfinity, toNat_packComponents]
  rfl

/-- The bits of a number on the grid. -/
theorem toNat_pack (hk : k = 0 ∨ 2 ^ 52 ≤ m) (hpos : 0 < m) (hm : m < 2 ^ 53) :
    (UnpackedFloat.pack .binary64 (.finite s m ((k : ℤ) - 1074) hpos)).toNat =
      signBit s + min infinityBits (k * 2 ^ 52 + m) := by
  have hbiased : ((k : ℤ) - 1074 + Format.binary64.exponentBias +
      (Format.binary64.mantissaBitsWithoutImplicit : ℕ)).toNat = k + 1 := by
    simp only [Format.exponentBias]
    omega
  have hbits : Format.binary64.mantissaBits = 53 := rfl
  simp only [UnpackedFloat.pack, hbiased, hbits]
  split
  next hlarge =>
    rw [toNat_packedInfinity, infinityBits, Nat.min_eq_left]
    omega
  next hfinite =>
    have hle : k * 2 ^ 52 + m ≤ infinityBits := by
      rw [infinityBits]
      omega
    rw [Nat.min_eq_right hle]
    split
    next hlog =>
      obtain ⟨hlow, -⟩ := (Nat.log2_eq_iff hpos.ne').mp (Nat.succ.inj hlog)
      rw [toNat_packComponents, BitVec.toNat_ofNat, BitVec.toNat_ofNat]
      omega
    next hlog =>
      have hlow : m < 2 ^ 52 := by
        by_contra hge
        exact hlog (congrArg (· + 1) ((Nat.log2_eq_iff hpos.ne').mpr ⟨by omega, hm⟩))
      rw [toNat_packComponents, BitVec.toNat_ofNat, BitVec.toNat_ofNat]
      omega

theorem sign_of_toNat {b : BitVec 64} (hbits : b.toNat = signBit s + n) (hn : n < 2 ^ 63) :
    Sign.ofBitVec (@unpackSign .binary64 b) = s := by
  have hsign := toNat_unpackSign b
  rw [hbits] at hsign
  cases s
  · rw [Sign.ofBitVec, if_neg]
    intro hzero
    rw [hzero, signBit] at hsign
    change 0 = _ at hsign
    omega
  · rw [Sign.ofBitVec, if_pos]
    refine BitVec.eq_of_toNat_eq ?_
    rw [hsign, signBit]
    change _ = 0
    omega

/-! ## Numbers by their bits -/

theorem toBits_ofBits {u : UInt64} (h : u.toNat % 2 ^ 63 ≤ infinityBits) : (Float.ofBits u).toBits = u := by
  have hnan : @isNaNBits .binary64 u.toBitVec = false := by
    have hexponent := toNat_unpackExponent u.toBitVec
    have hmantissa := toNat_unpackMantissa u.toBitVec
    rw [UInt64.toNat_toBitVec] at hexponent hmantissa
    rw [isNaNBits, decide_eq_false_iff_not, BitVec.toNat_inj.symm, ne_eq, BitVec.toNat_inj.symm, hexponent, hmantissa]
    rintro ⟨hfull, hsome⟩
    change _ = 2047 at hfull
    change ¬ _ = 0 at hsome
    rw [infinityBits] at h
    omega
  change UInt64.ofBitVec ((UnpackedFloat.unpack .binary64 u.toBitVec).pack .binary64) = u
  rw [pack_unpack, hnan]
  rfl

theorem toNat_number (hn : n ≤ infinityBits) : (number n).toBits.toNat = n := by
  have hsize : (UInt64.ofNat n).toNat = n := by
    rw [UInt64.toNat_ofNat', Nat.mod_eq_of_lt]
    exact Nat.lt_of_le_of_lt hn (by decide)
  rw [number, toBits_ofBits, hsize]
  rw [hsize, Nat.mod_eq_of_lt (Nat.lt_of_le_of_lt hn (by decide))]
  exact hn

/-- The fields of a number are those of its bits. -/
theorem unpack_of_toNat {x : Float} (hbits : x.toBits.toNat = signBit s + (k * 2 ^ 52 + m)) (hk : k = 0 ∨ 2 ^ 52 ≤ m)
    (hpos : 0 < m) (hm : m < 2 ^ 53) (hfinite : k * 2 ^ 52 + m < infinityBits) :
    x.toModel.unpack = .finite s m ((k : ℤ) - 1074) hpos := by
  change x.toModel.toBits.toBitVec.toNat = _ at hbits
  rw [infinityBits] at hfinite
  have hbelow : k * 2 ^ 52 + m < 2 ^ 63 := by omega
  unfold Float.Model.unpack
  generalize x.toModel.toBits.toBitVec = b at hbits
  have hexponent := toNat_unpackExponent b
  have hmantissa := toNat_unpackMantissa b
  have hsign : Sign.ofBitVec (@unpackSign .binary64 b) = s := sign_of_toNat hbits hbelow
  have hsignless : signBit s % 2 ^ 63 = 0 := by cases s <;> decide
  rw [hbits] at hexponent hmantissa
  have himplicit := toNat_append 1#1 (@unpackMantissa .binary64 b)
  simp only [UnpackedFloat.unpack, hsign]
  split
  next hfull =>
    rw [hfull] at hexponent
    change 2047 = _ at hexponent
    omega
  next =>
    split
    next hsub =>
      rw [hsub] at hexponent
      change 0 = _ at hexponent
      split
      next hnone =>
        rw [hnone] at hmantissa
        change 0 = _ at hmantissa
        omega
      next =>
        congr 1
        · rw [hmantissa]
          omega
        · rw [hsub]
          change (0 : ℤ) - (1023 + 52) + 1 = _
          omega
    next hnormal =>
      have hne : (@unpackExponent .binary64 b).toNat ≠ 0 := fun h => hnormal (BitVec.eq_of_toNat_eq h)
      congr 1
      · rw [himplicit, hmantissa]
        change 1 * 2 ^ 52 + _ = _
        omega
      · rw [hexponent] at hne ⊢
        change _ - (1023 + 52 : ℤ) = _
        omega

theorem unpack_number (hk : k = 0 ∨ 2 ^ 52 ≤ m) (hpos : 0 < m) (hm : m < 2 ^ 53) (hfinite : k * 2 ^ 52 + m < infinityBits) :
    (number (k * 2 ^ 52 + m)).toModel.unpack = .finite .positive m ((k : ℤ) - 1074) hpos :=
  unpack_of_toNat (by rw [toNat_number hfinite.le, signBit, Nat.zero_add]) hk hpos hm hfinite

/-- Behind the last finite number there is infinity, and what is no number. -/
theorem unpack_not_finite {x : Float} (hbits : x.toBits.toNat = signBit s + n) (hlarge : infinityBits ≤ n)
    (hn : n < 2 ^ 63) : x.toModel.unpack.isFinite = false := by
  change x.toModel.toBits.toBitVec.toNat = _ at hbits
  rw [infinityBits] at hlarge
  unfold Float.Model.unpack
  generalize x.toModel.toBits.toBitVec = b at hbits
  have hsignless : signBit s % 2 ^ 63 = 0 := by cases s <;> decide
  have hfull : @unpackExponent .binary64 b = -1#11 := by
    refine BitVec.eq_of_toNat_eq ?_
    rw [toNat_unpackExponent, hbits]
    change _ = 2047
    omega
  simp only [UnpackedFloat.unpack]
  rw [if_pos hfull]
  split <;> rfl

end

/-! ## Rounding a significand -/

/-- The bits behind a shifted significand say where the exact one lies between it and the next. -/
def Brackets (em : ExtendedMantissa) (t : ℚ) : Prop :=
  match em.roundBit, em.stickyBit with
  | false, false => t = em.mantissa
  | false, true => em.mantissa < t ∧ t < em.mantissa + 1 / 2
  | true, false => t = em.mantissa + 1 / 2
  | true, true => em.mantissa + 1 / 2 < t ∧ t < em.mantissa + 1

section
variable {em : ExtendedMantissa} {t : ℚ} {k m r : Nat} {e : ℤ} {s : Sign}

theorem Brackets.shiftRightOne (h : Brackets em t) : Brackets em.shiftRightOne (t / 2) := by
  obtain ⟨m, round, sticky⟩ := em
  obtain ⟨q, hq⟩ : ∃ q, q = m / 2 := ⟨_, rfl⟩
  rcases Nat.mod_two_eq_zero_or_one m with hm | hm
  · have hsplit : (m : ℚ) = 2 * q := by exact_mod_cast (show m = 2 * q by omega)
    cases round <;> cases sticky <;> simp [Brackets, ExtendedMantissa.shiftRightOne, hm, ← hq, hsplit] at h ⊢
    · linarith
    · constructor <;> linarith
    · constructor <;> linarith
    · constructor <;> linarith
  · have hsplit : (m : ℚ) = 2 * q + 1 := by exact_mod_cast (show m = 2 * q + 1 by omega)
    cases round <;> cases sticky <;> simp [Brackets, ExtendedMantissa.shiftRightOne, hm, ← hq, hsplit] at h ⊢
    · linarith
    · constructor <;> linarith
    · constructor <;> linarith
    · constructor <;> linarith

theorem Brackets.shift (h : Brackets em t) (j : Nat) : Brackets (em >>> j) (t / 2 ^ j) := by
  induction j with
  | zero =>
    rw [pow_zero, div_one]
    exact h
  | succ j ih =>
    rw [pow_succ, ← div_div]
    exact ih.shiftRightOne

theorem Brackets.nearest (h : Brackets em t) : NearestNat t em.roundedMantissa := by
  obtain ⟨m, round, sticky⟩ := em
  cases round <;> cases sticky <;>
    simp only [Brackets, ExtendedMantissa.roundedMantissa, ExtendedMantissa.accuracy, Accuracy.roundToNearestEven] at h ⊢
  · refine ⟨⟨?_, fun _ => ?_⟩, ?_, fun _ => ?_⟩ <;> linarith
  · refine ⟨⟨?_, fun _ => ?_⟩, ?_, fun _ => ?_⟩ <;> linarith
  · rcases Nat.mod_two_eq_zero_or_one m with hm | hm <;> rw [hm] <;>
      refine ⟨⟨?_, fun hodd => ?_⟩, ?_, fun hodd => ?_⟩ <;> first | omega | (push_cast; linarith)
  · refine ⟨⟨?_, fun _ => ?_⟩, ?_, fun _ => ?_⟩ <;> push_cast <;> linarith

theorem targetExponent_eq (m : Nat) (e : ℤ) :
    Format.binary64.targetExponent (totalExponent m e) = max ((m.log2 : ℤ) + e - 52) (-1074) := by
  simp only [Format.targetExponent, totalExponent, Format.mantissaBits, Format.minExponent]
  norm_num
  omega

/-- A significand that fits stays, and one that carried into 54 bits is halved. -/
theorem shiftToTargetExponent_rounded (hk : k = 0 ∨ 2 ^ 52 ≤ r) (hr : r ≤ 2 ^ 53) : ∃ k' r' : Nat,
    (shiftToTargetExponent .binary64 r ((k : ℤ) - 1074) .exact).1.mantissa = r' ∧
    (shiftToTargetExponent .binary64 r ((k : ℤ) - 1074) .exact).2 = (k' : ℤ) - 1074 ∧
    (k' = 0 ∨ 2 ^ 52 ≤ r') ∧ r' < 2 ^ 53 ∧ k' * 2 ^ 52 + r' = k * 2 ^ 52 + r := by
  rcases Nat.lt_or_eq_of_le hr with hr | rfl
  · have hlog : r.log2 ≤ 52 := by
      rcases Nat.eq_zero_or_pos r with rfl | hpos
      · simp
      · exact Nat.lt_succ_iff.mp ((Nat.log2_lt hpos.ne').mpr hr)
    have hshift : (max ((r.log2 : ℤ) + ((k : ℤ) - 1074) - 52) (-1074) - ((k : ℤ) - 1074)).toNat = 0 := by omega
    refine ⟨k, r, ?_, ?_, hk, hr, rfl⟩
    · rw [shiftToTargetExponent, targetExponent_eq, shiftToExponent, hshift]
      rfl
    · rw [shiftToTargetExponent, targetExponent_eq, shiftToExponent, hshift]
      simp
  · have hshift : (max (((2 ^ 53 : ℕ).log2 : ℤ) + ((k : ℤ) - 1074) - 52) (-1074) - ((k : ℤ) - 1074)).toNat = 1 := by
      rw [Nat.log2_two_pow]
      omega
    refine ⟨k + 1, 2 ^ 52, ?_, ?_, .inr (Nat.le_refl _), by omega, by omega⟩
    · rw [shiftToTargetExponent, targetExponent_eq, shiftToExponent, hshift]
      rfl
    · rw [shiftToTargetExponent, targetExponent_eq, shiftToExponent, hshift]
      push_cast
      omega

/-- What is rounded is an exact significand with no fewer bits than are kept. -/
theorem toNat_roundWithAccuracy (hpos : 0 < m) (he : e ≤ max ((m.log2 : ℤ) + e - 52) (-1074)) : ∃ n,
    RoundsTo (m * 2 ^ e) n ∧
      (UnpackedFloat.pack .binary64 (roundWithAccuracy .binary64 s m e .exact)).toNat = signBit s + n := by
  obtain ⟨k, hk⟩ : ∃ k : ℕ, max ((m.log2 : ℤ) + e - 52) (-1074) = (k : ℤ) - 1074 :=
    ⟨(max ((m.log2 : ℤ) + e - 52) (-1074) + 1074).toNat, by omega⟩
  obtain ⟨j, hj⟩ : ∃ j : ℕ, (k : ℤ) - 1074 = e + j := ⟨((k : ℤ) - 1074 - e).toNat, by omega⟩
  obtain ⟨em, hem⟩ : ∃ em, em = ExtendedMantissa.mk m false false >>> j := ⟨_, rfl⟩
  have hfirst : shiftToTargetExponent .binary64 m e .exact = (em, (k : ℤ) - 1074) := by
    rw [shiftToTargetExponent, targetExponent_eq, hk, shiftToExponent]
    rw [show ((k : ℤ) - 1074 - e).toNat = j by omega, hj, hem]
    rfl
  have hexact : Brackets (.mk m false false) m := rfl
  have hround : NearestNat ((m : ℚ) / 2 ^ j) em.roundedMantissa := hem ▸ (hexact.shift j).nearest
  obtain ⟨hmlow, hmhigh⟩ := log2_bounds hpos
  have hvalue : (m : ℚ) * 2 ^ e = m / 2 ^ j * 2 ^ ((k : ℤ) - 1074) := by
    rw [hj, zpow_add₀ two_ne_zero, zpow_natCast]
    field_simp
  have hhigh : (m : ℚ) / 2 ^ j < 2 ^ 53 := by
    rw [div_lt_iff₀ (by positivity)]
    refine hmhigh.trans_le ?_
    rw [← pow_add, ← zpow_natCast]
    exact zpow_le_zpow_right₀ (by norm_num) (by omega)
  have hlow : k = 0 ∨ 2 ^ 52 ≤ (m : ℚ) / 2 ^ j := by
    by_cases hzero : k = 0
    · exact .inl hzero
    · refine .inr ((le_div_iff₀ (by positivity)).mpr (le_trans ?_ hmlow))
      rw [← pow_add, ← zpow_natCast]
      exact zpow_le_zpow_right₀ (by norm_num) (by omega)
  refine ⟨_, hvalue ▸ roundsTo_scaled hlow hhigh hround, ?_⟩
  have hrhigh : em.roundedMantissa ≤ 2 ^ 53 := hround.le (by exact_mod_cast hhigh)
  have hrlow : k = 0 ∨ 2 ^ 52 ≤ em.roundedMantissa := hlow.imp_right fun hlow => hround.ge (by exact_mod_cast hlow)
  obtain ⟨k', r', hmantissa, hexponent, hk', hr', hsame⟩ := shiftToTargetExponent_rounded hrlow hrhigh
  rw [← hsame, roundWithAccuracy, hfirst]
  simp only [hmantissa, hexponent]
  split
  next hzero =>
    obtain rfl : k' = 0 := hk'.resolve_right (by omega)
    rw [hzero, UnpackedFloat.pack, packedZero, toNat_packComponents]
    rfl
  next hne => exact toNat_pack hk' _ hr'

/-- With all bits that are kept in front of the point, rounding is the same. -/
theorem toNat_round (hpos : 0 < m) (e : ℤ) : ∃ n, RoundsTo (m * 2 ^ e) n ∧
    (UnpackedFloat.pack .binary64 (UnpackedFloat.round .binary64 s m e)).toNat = signBit s + n := by
  obtain ⟨j, hj⟩ : ∃ j : ℕ, (e - max ((m.log2 : ℤ) + e - 52) (-1074)).toNat = j := ⟨_, rfl⟩
  have hround : UnpackedFloat.round .binary64 s m e = roundWithAccuracy .binary64 s (m * 2 ^ j) (e - j) .exact := by
    rw [UnpackedFloat.round, targetExponent_eq, decreaseExponent, hj, Nat.shiftLeft_eq]
  have hlog : (m * 2 ^ j).log2 = m.log2 + j := by
    rw [Nat.log2_eq_iff (by positivity), pow_add, pow_succ, pow_add]
    have hlow := Nat.log2_self_le hpos.ne'
    have hhigh := Nat.lt_log2_self (n := m)
    rw [pow_succ] at hhigh
    constructor <;> nlinarith [Nat.two_pow_pos j]
  have hvalue : (m : ℚ) * 2 ^ e = (m * 2 ^ j : ℕ) * 2 ^ (e - j : ℤ) := by
    rw [zpow_sub₀ two_ne_zero, zpow_natCast]
    push_cast
    field_simp
  rw [hround, hvalue]
  exact toNat_roundWithAccuracy (by positivity) (by rw [hlog]; push_cast; omega)

/-- The exact significand of the difference in exponents. -/
theorem decreaseExponent_eq (m : Nat) {e f : ℤ} (hle : f ≤ e) :
    ((decreaseExponent m e f).1 : ℚ) * 2 ^ f = m * 2 ^ e ∧ (0 < m → 0 < (decreaseExponent m e f).1) := by
  obtain ⟨j, hj⟩ : ∃ j : ℕ, e = f + j := ⟨(e - f).toNat, by omega⟩
  have hshift : (decreaseExponent m e f).1 = m * 2 ^ j := by
    rw [decreaseExponent, show (e - f).toNat = j by omega, Nat.shiftLeft_eq]
  rw [hshift, hj, zpow_add₀ two_ne_zero, zpow_natCast]
  refine ⟨by push_cast; ring, fun hpos => by positivity⟩

end

/-! ## Sums and products -/

section
variable {i j n : Nat} {x y : Float}

/-- A number that is not zero has a significand and an exponent. -/
theorem exists_unpack (hpos : 0 < i) (hi : i < infinityBits) :
    ∃ k m : Nat, ∃ hm : 0 < m, (k = 0 ∨ 2 ^ 52 ≤ m) ∧ m < 2 ^ 53 ∧
    (number i).toModel.unpack = .finite .positive m ((k : ℤ) - 1074) hm ∧ grid i = m * 2 ^ ((k : ℤ) - 1074) := by
  obtain ⟨k, m, rfl, hk, hm⟩ := exists_scaled i
  exact ⟨k, m, by omega, hk, hm, unpack_number hk (by omega) hm hi, grid_scaled hk hm.le⟩

theorem eq_number_of_toNat (h : x.toBits.toNat = n) (hn : n ≤ infinityBits) : x = number n := by
  rw [← Float.toBits_inj, ← UInt64.toNat_inj, h, toNat_number hn]

theorem number_inj (hi : i ≤ infinityBits) (hj : j ≤ infinityBits) : number i = number j ↔ i = j := by
  refine ⟨fun h => ?_, fun h => h ▸ rfl⟩
  rw [← toNat_number hi, h, toNat_number hj]

theorem mul_eq (x y : Float) :
    x * y = Float.ofModel (Float.Model.pack (UnpackedFloat.mul .binary64 x.toModel.unpack y.toModel.unpack)) := rfl

theorem add_eq (x y : Float) :
    x + y = Float.ofModel (Float.Model.pack (UnpackedFloat.add .binary64 x.toModel.unpack y.toModel.unpack)) := rfl

theorem toNat_ofModel_pack (u : UnpackedFloat) :
    (Float.ofModel (Float.Model.pack u)).toBits.toNat = (u.pack .binary64).toNat := rfl

theorem unpack_zero : (number 0).toModel.unpack = .zero .positive := rfl

theorem unpack_infinity : (number infinityBits).toModel.unpack = .infinity .positive := rfl

theorem zero_mul_number (hj : j < infinityBits) : number 0 * number j = number 0 ∧ number j * number 0 = number 0 := by
  rcases Nat.eq_zero_or_pos j with rfl | hjpos
  · exact ⟨rfl, rfl⟩
  obtain ⟨k, m, hm, -, -, hunpack, -⟩ := exists_unpack hjpos hj
  constructor
  · rw [mul_eq, unpack_zero, hunpack]
    rfl
  · rw [mul_eq, unpack_zero, hunpack]
    rfl

theorem zero_add_number (hj : j < infinityBits) : number 0 + number j = number j ∧ number j + number 0 = number j := by
  rcases Nat.eq_zero_or_pos j with rfl | hjpos
  · exact ⟨rfl, rfl⟩
  obtain ⟨k, m, hm, -, -, hunpack, -⟩ := exists_unpack hjpos hj
  have hpack : Float.ofModel (Float.Model.pack (number j).toModel.unpack) = number j := by
    rw [← Float.toBits_inj]
    exact congrArg UInt64.ofBitVec (pack_unpack_of_valid (number j).toModel.valid)
  rw [hunpack] at hpack
  constructor
  · rw [add_eq, unpack_zero, hunpack]
    exact hpack
  · rw [add_eq, unpack_zero, hunpack]
    exact hpack

theorem infinity_mul_number (hjpos : 0 < j) (hj : j < infinityBits) :
    number infinityBits * number j = number infinityBits := by
  obtain ⟨k, m, hm, -, -, hunpack, -⟩ := exists_unpack hjpos hj
  rw [mul_eq, unpack_infinity, hunpack]
  rfl

theorem infinity_add_number (hj : j < infinityBits) : number infinityBits + number j = number infinityBits := by
  rcases Nat.eq_zero_or_pos j with rfl | hjpos
  · rfl
  obtain ⟨k, m, hm, -, -, hunpack, -⟩ := exists_unpack hjpos hj
  rw [add_eq, unpack_infinity, hunpack]
  rfl

/-- The product of two numbers is the exact one, rounded. -/
theorem number_mul (hi : i < infinityBits) (hj : j < infinityBits) :
    ∃ n, RoundsTo (grid i * grid j) n ∧ number i * number j = number n := by
  rcases Nat.eq_zero_or_pos i with rfl | hipos
  · exact ⟨0, by simpa using roundsTo_grid hi, (zero_mul_number hj).1⟩
  rcases Nat.eq_zero_or_pos j with rfl | hjpos
  · exact ⟨0, by simpa using roundsTo_grid hj, (zero_mul_number hi).2⟩
  obtain ⟨k, m, hm, hk, hmhigh, hunpack, hgrid⟩ := exists_unpack hipos hi
  obtain ⟨k', m', hm', hk', hmhigh', hunpack', hgrid'⟩ := exists_unpack hjpos hj
  have hwide : (k : ℤ) - 1074 + ((k' : ℤ) - 1074) ≤
      max (((m * m').log2 : ℤ) + ((k : ℤ) - 1074 + ((k' : ℤ) - 1074)) - 52) (-1074) := by
    by_cases hsub : k = 0 ∧ k' = 0
    · omega
    · have hlarge : 52 ≤ (m * m').log2 := by
        rw [Nat.le_log2 (by positivity)]
        rcases hk.symm with hlow | hzero
        · exact hlow.trans (Nat.le_mul_of_pos_right m hm')
        · exact (hk'.resolve_left fun h => hsub ⟨hzero, h⟩).trans (Nat.le_mul_of_pos_left m' hm)
      omega
  obtain ⟨n, hn, hbits⟩ := toNat_roundWithAccuracy (s := .positive) (Nat.mul_pos hm hm') hwide
  have hvalue : grid i * grid j = (m * m' : ℕ) * 2 ^ ((k : ℤ) - 1074 + ((k' : ℤ) - 1074)) := by
    rw [hgrid, hgrid', zpow_add₀ two_ne_zero]
    push_cast
    ring
  refine ⟨n, hvalue ▸ hn, eq_number_of_toNat ?_ hn.le⟩
  rw [mul_eq, toNat_ofModel_pack, hunpack, hunpack', UnpackedFloat.mul]
  exact hbits.trans (Nat.zero_add n)

/-- The sum of two numbers is the exact one, rounded. -/
theorem number_add (hi : i < infinityBits) (hj : j < infinityBits) :
    ∃ n, RoundsTo (grid i + grid j) n ∧ number i + number j = number n := by
  rcases Nat.eq_zero_or_pos i with rfl | hipos
  · exact ⟨j, by simpa using roundsTo_grid hj, (zero_add_number hj).1⟩
  rcases Nat.eq_zero_or_pos j with rfl | hjpos
  · exact ⟨i, by simpa using roundsTo_grid hi, (zero_add_number hi).2⟩
  obtain ⟨k, m, hm, hk, hmhigh, hunpack, hgrid⟩ := exists_unpack hipos hi
  obtain ⟨k', m', hm', hk', hmhigh', hunpack', hgrid'⟩ := exists_unpack hjpos hj
  obtain ⟨e, he⟩ : ∃ e, e = min ((k : ℤ) - 1074) ((k' : ℤ) - 1074) := ⟨_, rfl⟩
  obtain ⟨a, ha⟩ : ∃ a, a = (decreaseExponent m ((k : ℤ) - 1074) e).1 := ⟨_, rfl⟩
  obtain ⟨b, hb⟩ : ∃ b, b = (decreaseExponent m' ((k' : ℤ) - 1074) e).1 := ⟨_, rfl⟩
  obtain ⟨hsame, hapos⟩ := decreaseExponent_eq m (show e ≤ (k : ℤ) - 1074 by omega)
  obtain ⟨hsame', -⟩ := decreaseExponent_eq m' (show e ≤ (k' : ℤ) - 1074 by omega)
  rw [← ha] at hsame hapos
  rw [← hb] at hsame'
  have hsum : 0 < a + b := Nat.add_pos_left (hapos hm) b
  have hvalue : grid i + grid j = (a + b : ℕ) * 2 ^ e := by
    rw [hgrid, hgrid', ← hsame, ← hsame']
    push_cast
    ring
  obtain ⟨n, hn, hbits⟩ := toNat_round (s := .positive) hsum e
  refine ⟨n, hvalue ▸ hn, eq_number_of_toNat ?_ hn.le⟩
  have hadd : UnpackedFloat.add .binary64 (number i).toModel.unpack (number j).toModel.unpack =
      UnpackedFloat.round .binary64 .positive (a + b) e := by
    have hgt : compare ((a : ℤ) + (b : ℤ)) 0 = .gt := by
      rw [compare_gt_iff_gt]
      omega
    rw [hunpack, hunpack', UnpackedFloat.add]
    simp only [← he, ← ha, ← hb, Sign.apply, UnpackedFloat.normalize, hgt]
    rfl
  rw [add_eq, toNat_ofModel_pack, hadd]
  exact hbits.trans (Nat.zero_add n)

end

/-! ## Numbers with a sign -/

/-- A finite number other than zero, by its sign and the bits of its size. -/
structure Sized (s : Sign) (n : Nat) (x : Float) : Prop where
  pos : 0 < n
  lt : n < infinityBits
  toNat : x.toBits.toNat = signBit s + n

section
variable {x : Float} {s : Sign} {n : Nat}

theorem exists_toNat (x : Float) : ∃ s n, n < 2 ^ 63 ∧ x.toBits.toNat = signBit s + n := by
  have hbits := x.toBits.toNat_lt
  rcases Nat.lt_or_ge x.toBits.toNat (2 ^ 63) with hlow | hhigh
  · exact ⟨.positive, x.toBits.toNat, hlow, (Nat.zero_add _).symm⟩
  · refine ⟨.negative, x.toBits.toNat - 2 ^ 63, by omega, ?_⟩
    rw [signBit]
    omega

theorem exists_sized (hfinite : x.isFinite = true) (hzero : (x == 0) = false) : ∃ s n, Sized s n x := by
  obtain ⟨s, n, hn, hbits⟩ := exists_toNat x
  refine ⟨s, n, Nat.pos_of_ne_zero ?_, ?_, hbits⟩
  · rintro rfl
    have hx : x = 0 ∨ x = -0 := by
      cases s
      · exact .inr (Float.toBits_inj.mp (UInt64.toNat_inj.mp hbits))
      · exact .inl (Float.toBits_inj.mp (UInt64.toNat_inj.mp hbits))
    have heq : (x == 0) = true := by rcases hx with rfl | rfl <;> decide +kernel
    rw [heq] at hzero
    cases hzero
  · by_contra hlarge
    have hnot := unpack_not_finite hbits (Nat.le_of_not_lt hlarge) hn
    change x.toModel.unpack.isFinite = true at hfinite
    rw [hnot] at hfinite
    cases hfinite

theorem sized_number (hpos : 0 < n) (hn : n < infinityBits) : Sized .positive n (number n) :=
  ⟨hpos, hn, by rw [toNat_number hn.le, signBit, Nat.zero_add]⟩

/-- The fields of a number, and its bits with another sign. -/
theorem Sized.unpack (h : Sized s n x) : ∃ e m, ∃ hm : 0 < m, x.toModel.unpack = .finite s m e hm ∧
    ∀ s', (UnpackedFloat.pack .binary64 (.finite s' m e hm)).toNat = signBit s' + n := by
  obtain ⟨hpos, hn, hbits⟩ := h
  obtain ⟨k, m, rfl, hk, hm⟩ := exists_scaled n
  refine ⟨_, m, by omega, unpack_of_toNat hbits hk (by omega) hm hn, fun s' => ?_⟩
  rw [toNat_pack hk _ hm, Nat.min_eq_right hn.le]

theorem Sized.abs (h : Sized s n x) : x.abs = number n := by
  obtain ⟨e, m, hm, hunpack, hpack⟩ := h.unpack
  refine eq_number_of_toNat ?_ h.lt.le
  change (UnpackedFloat.pack .binary64 (UnpackedFloat.abs x.toModel.unpack)).toNat = n
  rw [hunpack, UnpackedFloat.abs, hpack, signBit, Nat.zero_add]

theorem Sized.eq_number (h : Sized .positive n x) : x = number n :=
  eq_number_of_toNat (by rw [h.toNat, signBit, Nat.zero_add]) h.lt.le

theorem Sized.eq_neg_number (h : Sized .negative n x) : x = -number n := by
  obtain ⟨e, m, hm, hunpack, hpack⟩ := (sized_number h.pos h.lt).unpack
  refine Float.toBits_inj.mp (UInt64.toNat_inj.mp ?_)
  change _ = (UnpackedFloat.pack .binary64 (UnpackedFloat.neg (number n).toModel.unpack)).toNat
  rw [h.toNat, hunpack]
  exact (hpack .negative).symm

theorem Sized.isNaN (h : Sized s n x) : x.isNaN = false := by
  obtain ⟨e, m, hm, hunpack, -⟩ := h.unpack
  change x.toModel.unpack.isNaN = false
  rw [hunpack]
  rfl

theorem Sized.isInf (h : Sized s n x) : x.isInf = false := by
  obtain ⟨e, m, hm, hunpack, -⟩ := h.unpack
  change x.toModel.unpack.isInf = false
  rw [hunpack]
  rfl

theorem Sized.beq_zero (h : Sized s n x) : (x == 0) = false := by
  obtain ⟨e, m, hm, hunpack, -⟩ := h.unpack
  have hzero : (0 : Float).toModel.unpack = .zero .positive := rfl
  change UnpackedFloat.beq x.toModel.unpack (0 : Float).toModel.unpack = false
  rw [hunpack, hzero]
  cases s <;> rfl

theorem Sized.lt_zero_iff (h : Sized s n x) : x < 0 ↔ s = .negative := by
  obtain ⟨e, m, hm, hunpack, -⟩ := h.unpack
  have hzero : (0 : Float).toModel.unpack = .zero .positive := rfl
  change decide (UnpackedFloat.lt x.toModel.unpack (0 : Float).toModel.unpack = true) = true ↔ _
  rw [hunpack, hzero]
  cases s <;> simp [UnpackedFloat.lt, UnpackedFloat.compare]

theorem Sized.zero_lt_iff (h : Sized s n x) : 0 < x ↔ s = .positive := by
  obtain ⟨e, m, hm, hunpack, -⟩ := h.unpack
  have hzero : (0 : Float).toModel.unpack = .zero .positive := rfl
  change decide (UnpackedFloat.lt (0 : Float).toModel.unpack x.toModel.unpack = true) = true ↔ _
  rw [hunpack, hzero]
  cases s <;> simp [UnpackedFloat.lt, UnpackedFloat.compare]

end

end Treewalk.Decimal
