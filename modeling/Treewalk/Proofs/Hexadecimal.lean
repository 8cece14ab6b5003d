/-
  Treewalk.Proofs.Hexadecimal — hexadecimal numbers in a source and in a string.

  A literal is worked out as a whole number and rounded once. A string is folded digit by digit in
  binary64: from the digit on that takes the number to `2 ^ 53`, a digit is less than half a unit of the last
  place and lost (`kept`). That makes a difference if the number kept is halfway between two others and
  would have gone to the even one below, but for the digits lost.

  Proved: the fold gives the number kept, rounded once (`foldl_digits`), and a literal and a string of the
  same digits give the same number but in that case (`hex_paths`).
-/

import Treewalk.Proofs.Escapes
import Treewalk.Proofs.Numerals
import Treewalk.Proofs.Respacing

namespace Treewalk

open Decimal
open Escape (isHexDigit hexValue hexNat byteLength)

namespace Decimal

/-! ## Whole numbers -/

section
variable {n j : Nat}

theorem ofNat_eq_number (h : RoundsTo n j) : ofNat n = number j := by
  rw [ofNat, nearest_eq]
  congr 1
  rw [nearestBits_eq_iff Nat.one_pos]
  simpa using h

theorem exists_ofNat (n : Nat) : ∃ j, RoundsTo n j ∧ ofNat n = number j := by
  have h := roundsTo_nearestBits (a := n) Nat.one_pos
  rw [Nat.cast_one, div_one] at h
  exact ⟨_, h, rfl⟩

/-- Whole numbers of 64 bits are far from infinity. -/
theorem nearest_ofNat (hn : n < 2 ^ 64) : Nearest n (ofNat n) := by
  obtain ⟨j, hj, hnumber⟩ := exists_ofNat n
  have hbound : (n : ℚ) ≤ grid ((1086 + 1) * 2 ^ 52) := by
    rw [grid_twoPow]
    norm_num
    exact_mod_cast hn.le
  have hfinite : j < infinityBits := (hj.le_of_le (by decide) hbound).trans_lt (by decide)
  exact ⟨j, hfinite, hnumber, fun m _ => hj.nearest hfinite m⟩

/-- Numbers from `2 ^ 53` on have a last place of two or more. -/
theorem RoundsTo.large (h : RoundsTo n j) (hn : 2 ^ 53 ≤ n) : 1076 * 2 ^ 52 ≤ j := by
  refine h.ge_of_ge (m := (1075 + 1) * 2 ^ 52) (by decide) ?_
  rw [grid_twoPow]
  norm_num
  exact_mod_cast hn

/-- With a digit appended a number of that size has a last place of at least 32. -/
theorem roundsTo_digit {d : Nat} (hj : 1080 * 2 ^ 52 ≤ j) (hfinite : j < infinityBits) (hd : d < 16) :
    RoundsTo (grid j + d) j := by
  refine roundsTo_of_lt hfinite (le_add_of_nonneg_right (Nat.cast_nonneg d)) ?_
  obtain ⟨k, m, rfl, hk, hm⟩ := exists_scaled j
  have hunit : (2 : ℚ) ^ (5 : ℤ) ≤ 2 ^ ((k : ℤ) - 1074) := zpow_le_zpow_right₀ (by norm_num) (by omega)
  have hdigit : (d : ℚ) < 16 := by exact_mod_cast hd
  rw [halfway_scaled hk hm, grid_scaled hk hm.le]
  norm_num at hunit
  linarith

theorem sixteen_eq : (16 : Float) = number ((1026 + 1) * 2 ^ 52) ∧ grid ((1026 + 1) * 2 ^ 52) = 16 := by
  constructor
  · decide +kernel
  · rw [grid_twoPow]
    norm_num

/-- One more digit: behind a number that has all 53 bits it counts as a zero. -/
theorem mul_add_digit (n : Nat) {d : Nat} (hd : d < 16) :
    ofNat n * 16 + ofNat d = ofNat (16 * n + if n < 2 ^ 53 then d else 0) := by
  obtain ⟨hsixteen, hgrid⟩ := sixteen_eq
  obtain ⟨i, hi, hdigit, -⟩ := exists_grid_natCast (show d < 2 ^ 53 by omega)
  have hd' : ofNat d = number i := ofNat_eq_number (hdigit ▸ roundsTo_grid hi)
  rw [hsixteen, hd']
  split
  next hsmall =>
    obtain ⟨j, hj, hexact, hlow⟩ := exists_grid_natCast hsmall
    have hn : ofNat n = number j := ofNat_eq_number (hexact ▸ roundsTo_grid hj)
    obtain ⟨j', hproduct, hmul⟩ := number_mul hj (show (1026 + 1) * 2 ^ 52 < infinityBits by decide)
    rw [hgrid, hexact] at hproduct
    -- The product is exact, so that only the sum is rounded.
    obtain ⟨l, hl, hproduct'⟩ : ∃ l < infinityBits, grid l = n * 16 := by
      rcases Nat.eq_zero_or_pos n with rfl | hpos
      · exact ⟨0, by decide, by simp⟩
      · have hbound : j ≤ (1075 + 1) * 2 ^ 52 := by
          refine (roundsTo_grid hj).le_of_le (by decide) ?_
          rw [grid_twoPow, hexact]
          norm_num
          exact_mod_cast hsmall.le
        refine ⟨j + 4 * 2 ^ 52, by rw [infinityBits]; omega, ?_⟩
        rw [grid_shift (hlow hpos), hexact]
        norm_num
    rw [← hproduct'] at hproduct
    obtain ⟨j'', hsum, hadd⟩ := number_add hl hi
    rw [hn, hmul, hproduct.unique (roundsTo_grid hl), hadd, ofNat_eq_number]
    rw [hproduct', hdigit] at hsum
    push_cast
    rwa [mul_comm]
  next hlarge =>
    obtain ⟨j, hround, hn⟩ := exists_ofNat n
    have hj := hround.large (by omega)
    have hshift : RoundsTo (16 * n + 0 : ℕ) (min infinityBits (j + 4 * 2 ^ 52)) := by
      have h := hround.shift (by omega) 4
      rwa [show (n : ℚ) * 2 ^ 4 = (16 * n + 0 : ℕ) by push_cast; ring] at h
    rw [hn, ofNat_eq_number hshift]
    rcases Nat.lt_or_eq_of_le hround.le with hfinite | rfl
    · obtain ⟨j', hproduct, hmul⟩ := number_mul hfinite (show (1026 + 1) * 2 ^ 52 < infinityBits by decide)
      have hshifted := (roundsTo_grid hfinite).shift (by omega) 4
      rw [hgrid, show (16 : ℚ) = 2 ^ 4 by norm_num] at hproduct
      rw [hmul, hproduct.unique hshifted]
      rcases Nat.lt_or_ge (j + 4 * 2 ^ 52) infinityBits with hsmall | hinfinite
      · rw [Nat.min_eq_right hsmall.le]
        obtain ⟨j', hsum, hadd⟩ := number_add hsmall hi
        rw [hdigit] at hsum
        rw [hadd, hsum.unique (roundsTo_digit (by omega) hsmall hd)]
      · rw [Nat.min_eq_left hinfinite, infinity_add_number hi]
    · rw [infinity_mul_number (by omega) (by decide), infinity_add_number hi, Nat.min_eq_left (Nat.le_add_right _ _)]

end

/-! ## Digits that are lost -/

/-- A whole number that is halfway between two numbers, the lower of which is the even one. -/
def Tied (n : Nat) : Prop := ∃ m < infinityBits, m % 2 = 0 ∧ (n : ℚ) = halfway m

/-- Of `n` the number `k` is kept and `t` digits are lost, which are behind its 53 bits. -/
structure Keeps (t k n : Nat) : Prop where
  le : k ≤ n
  lt : n < k + 16 ^ t
  dvd : 16 ^ t ∣ k
  large : t = 0 ∨ 2 ^ 53 * 16 ^ t ≤ k

section
variable {t k n m i j d : Nat}

theorem Keeps.step (h : Keeps t k n) (hd : d < 16) :
    ∃ t', Keeps t' (16 * k + if k < 2 ^ 53 then d else 0) (16 * n + d) := by
  obtain ⟨hle, hlt, hdvd, hlarge⟩ := h
  split
  next hsmall =>
    obtain rfl : t = 0 := by
      refine hlarge.resolve_right fun hlarge => ?_
      have := Nat.le_mul_of_pos_right (2 ^ 53) (Nat.pow_pos (n := t) (show 0 < 16 by omega))
      omega
    obtain rfl : k = n := by omega
    exact ⟨0, le_refl _, by simp, by simp, .inl rfl⟩
  next hbig =>
    refine ⟨t + 1, by omega, by rw [pow_succ]; omega, ?_, .inr ?_⟩
    · rw [pow_succ, Nat.add_zero, mul_comm 16 k]
      exact Nat.mul_dvd_mul_right hdvd 16
    · rw [pow_succ]
      rcases hlarge with rfl | hlarge <;> omega

/-- No number is halfway between two others that is beyond what is kept and not beyond the whole. -/
theorem Keeps.halfway (h : Keeps t k n) (m : Nat) : Decimal.halfway m ≤ k ∨ n < Decimal.halfway m := by
  by_contra hnot
  push Not at hnot
  obtain ⟨hk, hn⟩ := hnot
  obtain ⟨hle, hlt, hdvd, hlarge⟩ := h
  have hne : k < n := by exact_mod_cast hk.trans_le hn
  have ht : t ≠ 0 := by
    rintro rfl
    omega
  obtain ⟨e, f, rfl, hf, hfhigh⟩ := exists_scaled m
  rw [halfway_scaled hf hfhigh] at hk hn
  -- The unit of the last place is a multiple of what is lost, and so is half of it.
  have hunit : (2 : ℚ) ^ ((4 * t : ℕ) : ℤ) < 2 ^ ((e : ℤ) - 1074) := by
    have hbig : ((2 ^ 53 * 16 ^ t : ℕ) : ℚ) ≤ k := by exact_mod_cast hlarge.resolve_left ht
    have hfQ : (f : ℚ) + 1 / 2 < 2 ^ 53 := by
      have : (f : ℚ) + 1 ≤ 2 ^ 53 := by exact_mod_cast hfhigh
      linarith
    have hpos : (0 : ℚ) < 2 ^ ((e : ℤ) - 1074) := by positivity
    have hsixteen : (16 : ℚ) ^ t = 2 ^ ((4 * t : ℕ) : ℤ) := by
      rw [zpow_natCast, pow_mul]
      norm_num
    push_cast at hbig
    rw [hsixteen] at hbig
    nlinarith [hbig.trans_lt hk]
  obtain ⟨i, hi⟩ : ∃ i : ℕ, (e : ℤ) - 1074 = (4 * t : ℕ) + i + 1 := by
    have := (zpow_lt_zpow_iff_right₀ (one_lt_two (α := ℚ))).mp hunit
    exact ⟨((e : ℤ) - 1074 - (4 * t : ℕ) - 1).toNat, by omega⟩
  have hhalf : ((f : ℚ) + 1 / 2) * 2 ^ ((e : ℤ) - 1074) = (16 ^ t * ((2 * f + 1) * 2 ^ i) : ℕ) := by
    rw [hi, zpow_add_one₀ two_ne_zero, zpow_add₀ two_ne_zero, zpow_natCast, zpow_natCast, pow_mul]
    push_cast
    norm_num
    ring
  rw [hhalf] at hk hn
  have hk' : k < 16 ^ t * ((2 * f + 1) * 2 ^ i) := by exact_mod_cast hk
  have hn' : 16 ^ t * ((2 * f + 1) * 2 ^ i) ≤ n := by exact_mod_cast hn
  obtain ⟨q, rfl⟩ := hdvd
  have hq : q + 1 ≤ (2 * f + 1) * 2 ^ i := Nat.lt_of_mul_lt_mul_left hk'
  have := Nat.mul_le_mul_left (16 ^ t) hq
  rw [Nat.mul_add, Nat.mul_one] at this
  omega

/-- What is lost makes no difference but on top of a tie that would have gone down. -/
theorem Keeps.ofNat_eq_iff (h : Keeps t k n) : ofNat k = ofNat n ↔ ¬ (k < n ∧ Tied k) := by
  obtain ⟨i, hi, hk⟩ := exists_ofNat k
  obtain ⟨j, hj, hn⟩ := exists_ofNat n
  have hle : (k : ℚ) ≤ n := by exact_mod_cast h.le
  rw [hk, hn, number_inj hi.le hj.le]
  constructor
  · rintro rfl ⟨hlt, m, hm, heven, htie⟩
    have hplace : RoundsTo k m := by
      refine roundsTo_of_neighbours hm.le (fun l hl => ?_) fun _ => ⟨htie.le, fun hodd => by omega⟩
      have hlt := halfway_strictMono (show l < m by omega)
      rw [htie]
      exact ⟨hlt.le, fun _ => hlt⟩
    obtain rfl := hplace.unique hi
    have habove := (hj.above _ hm (Nat.le_refl _)).1
    rw [← htie] at habove
    exact absurd hlt (not_lt.mpr (by exact_mod_cast habove))
  · intro hnot
    refine RoundsTo.unique ?_ hj
    refine ⟨hi.le, fun m hm => ?_, fun m hm him => ?_⟩
    · obtain ⟨hbelow, hodd⟩ := hi.below m hm
      exact ⟨hbelow.trans hle, fun h => (hodd h).trans_le hle⟩
    · rcases h.halfway m with hdown | hup
      · obtain ⟨habove, hodd⟩ := hi.above i (by omega) (Nat.le_refl _)
        have hmono := halfway_strictMono.monotone him
        have htie : (k : ℚ) = Decimal.halfway i := le_antisymm habove (hmono.trans hdown)
        have heven : i % 2 = 0 := by
          by_contra h
          exact absurd (hodd (by omega)) (not_lt.mpr htie.ge)
        obtain rfl : k = n := by
          by_contra hne
          exact hnot ⟨lt_of_le_of_ne h.le hne, i, by omega, heven, htie⟩
        exact hi.above m hm him
      · exact ⟨hup.le, fun _ => hup⟩

end

end Decimal

namespace NumberText

/-- What is kept of the digits when each is taken in with 53 bits. -/
def kept (digits : List Char) : Nat := digits.foldl (fun n c => 16 * n + if n < 2 ^ 53 then hexValue c else 0) 0

section
variable {x : Char} {cs : List Char}

/-- Each digit taken in is rounded, and all together give the number kept, rounded once. -/
theorem foldl_digits (hcs : ∀ c ∈ cs, isHexDigit c = true) (n : Nat) :
    cs.foldl (fun x c => x * 16 + ofNat (hexValue c)) (ofNat n) =
      ofNat (cs.foldl (fun n c => 16 * n + if n < 2 ^ 53 then hexValue c else 0) n) := by
  induction cs generalizing n with
  | nil => rfl
  | cons c cs ih =>
    rw [List.foldl_cons, List.foldl_cons, mul_add_digit n (Escape.digit_of_isHexDigit (hcs c List.mem_cons_self)).1]
    exact ih (fun d hd => hcs d (List.mem_cons_of_mem c hd)) _

theorem hex_eq (hne : cs ≠ []) (hcs : ∀ c ∈ cs, isHexDigit c = true) : hex cs = ofNat (kept cs) := by
  rw [hex, if_pos ⟨hne, by simpa using hcs⟩]
  exact foldl_digits hcs 0

theorem keeps_digits (hcs : ∀ c ∈ cs, isHexDigit c = true) : ∃ t, Keeps t (kept cs) (hexNat cs) := by
  have hfold : ∀ {t k n}, Keeps t k n → ∃ t',
      Keeps t' (cs.foldl (fun n c => 16 * n + if n < 2 ^ 53 then hexValue c else 0) k)
        (cs.foldl (fun n c => 16 * n + hexValue c) n) := by
    induction cs with
    | nil => exact fun h => ⟨_, h⟩
    | cons c cs ih =>
      intro t k n h
      obtain ⟨t', h'⟩ := h.step (Escape.digit_of_isHexDigit (hcs c List.mem_cons_self)).1
      exact ih (fun d hd => hcs d (List.mem_cons_of_mem c hd)) h'
  exact hfold (t := 0) ⟨le_refl 0, by simp, by simp, .inl rfl⟩

end

end NumberText

/-! ## Literals and strings -/

/-- A literal of hexadecimal digits is rounded once. A string of the same digits is too, but only what is kept
    of them, which is another number if and only if what is lost comes on top of a tie. -/
theorem hex_paths {x : Char} {cs : List Char} {n : Nat} (hx : x = 'x' ∨ x = 'X') (hne : cs ≠ []) (hcs : Escape.Hex cs n)
    (hn : n < 2 ^ 64) : ∃ literal converted,
      lex (String.ofList ('0' :: x :: cs)) =
        .ok (Lexer.oneToken (.number literal) (String.ofList ('0' :: x :: cs)).utf8ByteSize) ∧
      Nearest n literal ∧
      Value.toNumber (.string (String.ofList ('0' :: x :: cs))) = converted ∧
      Nearest (NumberText.kept cs) converted ∧
      (converted = literal ↔ ¬ (NumberText.kept cs < n ∧ Tied (NumberText.kept cs))) := by
  obtain ⟨hdigits, rfl⟩ := Escape.hex_iff.mp hcs
  obtain ⟨t, hkeeps⟩ := NumberText.keeps_digits hdigits
  refine ⟨ofNat (hexNat cs), ofNat (NumberText.kept cs), ?_, nearest_ofNat hn, ?_, nearest_ofNat (hkeeps.le.trans_lt hn),
    hkeeps.ofNat_eq_iff⟩
  · rw [← Lexer.byteLength_toList, String.toList_ofList]
    refine Lexer.lex_spelled (.hexNumber hx hne hdigits) fun span => ?_
    have hsmall : hexNat cs < Nat.pow 2 64 := hn
    simp only [Lexer.kind, Lexer.hexKind?, List.drop_succ_cons, List.drop_zero, if_pos hsmall]
  · have hblank : ∀ c ∈ '0' :: x :: cs, Text.isBlank c = false := by
      refine List.forall_mem_cons.mpr ⟨rfl, List.forall_mem_cons.mpr ⟨by rcases hx with rfl | rfl <;> rfl, fun c hc => ?_⟩⟩
      have hrange := Escape.isHexDigit_iff.mp (hdigits c hc)
      simp only [Char.reduceToNat] at hrange
      exact Text.isBlank_visible (by omega) (by omega)
    rw [Value.toNumber, NumberText.read, String.toList_ofList, Text.trim_eq_self hblank, ← NumberText.hex_eq hne hdigits]
    rcases hx with rfl | rfl <;> rfl

/-- The first 14 digits are a tie between two numbers, and the lower one is even; the last digit is lost. -/
theorem hex_paths_tie : ∃ literal converted,
    lex (String.ofList ('0' :: 'x' :: "200000000000011".toList)) =
      .ok (Lexer.oneToken (.number literal) (String.ofList ('0' :: 'x' :: "200000000000011".toList)).utf8ByteSize) ∧
    Nearest (0x200000000000011 : ℕ) literal ∧
    Value.toNumber (.string (String.ofList ('0' :: 'x' :: "200000000000011".toList))) = converted ∧
    Nearest (NumberText.kept "200000000000011".toList) converted ∧
    (converted = literal ↔
      ¬ (NumberText.kept "200000000000011".toList < 0x200000000000011 ∧
        Tied (NumberText.kept "200000000000011".toList))) := by
  have hcs : Escape.Hex "200000000000011".toList 0x200000000000011 :=
    Escape.hex_iff.mpr ⟨List.all_eq_true.mp (by decide +kernel), by decide +kernel⟩
  exact hex_paths (.inl rfl) (by decide) hcs (by decide)

/-- The literal is rounded up from the tie, the string is not. -/
theorem hex_paths_differ : ∃ literal,
    lex "0x200000000000011" = .ok [⟨.number literal, ⟨0, 17⟩⟩, ⟨.eof, .point 17⟩] ∧
      literal = Decimal.ofNat 0x200000000000020 ∧
      Value.toNumber (.string "0x200000000000011") = Decimal.ofNat 0x200000000000000 ∧
      Value.toNumber (.string "0x200000000000011") ≠ literal :=
  ⟨Decimal.ofNat 0x200000000000020, by decide +kernel, rfl, by decide +kernel, by decide +kernel⟩

end Treewalk
