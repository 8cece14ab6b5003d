/-
  Treewalk.Proofs.NumberKinds — the kinds of numbers, and what each is written as.

  A number is no number, infinite, zero, or finite with a size (`kind`); there is one that is no number, and
  two that are zero. `toRat? x` is the number itself, exactly, if it is finite.

  Proved: the text of any number is read back as the number, but for the sign of zero, which is not written
  (`read_text`); so two numbers have one text if and only if they are the same up to that sign
  (`numberText_inj`).
-/

import Treewalk.Proofs.Hexadecimal
import Treewalk.Proofs.NumberText

namespace Treewalk.Decimal

open Float.Model Float.Model.UnpackedFloat
open NumberText (signed)

/-! ## Kinds -/

inductive Kind : Float → Prop
  | nan : Kind NumberText.nan
  | infinite (negative : Bool) : Kind (signed negative NumberText.infinity)
  | zero (negative : Bool) : Kind (signed negative 0)
  | sized {s : Sign} {n : Nat} {x : Float} : Sized s n x → Kind x

theorem kind (x : Float) : Kind x := by
  have hback : Float.ofModel (Float.Model.pack x.toModel.unpack) = x := by
    rw [← Float.toBits_inj]
    exact congrArg UInt64.ofBitVec (pack_unpack_of_valid x.toModel.valid)
  cases hunpack : x.toModel.unpack with
  | notANumber =>
    rw [← hback, hunpack]
    exact .nan
  | infinity s =>
    rw [← hback, hunpack]
    cases s
    · exact .infinite true
    · exact .infinite false
  | zero s =>
    rw [← hback, hunpack]
    cases s
    · exact .zero true
    · exact .zero false
  | finite s m e hm =>
    have hfinite : x.isFinite = true := by
      change x.toModel.unpack.isFinite = true
      rw [hunpack]
      rfl
    have hzero : (x == 0) = false := by
      change UnpackedFloat.beq x.toModel.unpack (0 : Float).toModel.unpack = false
      rw [hunpack]
      cases s <;> rfl
    obtain ⟨s, n, h⟩ := exists_sized hfinite hzero
    exact .sized h

section
variable {x y : Float} {s : Sign} {n : Nat}

/-- There is one number that is none. -/
theorem isNaN_iff : x.isNaN = true ↔ x = NumberText.nan := by
  refine ⟨fun h => ?_, fun h => h ▸ rfl⟩
  cases kind x with
  | nan => rfl
  | infinite negative => exact absurd h (by cases negative <;> decide)
  | zero negative => exact absurd h (by cases negative <;> decide)
  | sized hs =>
    rw [hs.isNaN] at h
    cases h

theorem beq_zero_iff : (x == 0) = true ↔ ∃ negative, x = signed negative 0 := by
  refine ⟨fun h => ?_, ?_⟩
  · cases kind x with
    | nan => exact absurd h (by decide)
    | infinite negative => exact absurd h (by cases negative <;> decide)
    | zero negative => exact ⟨negative, rfl⟩
    | sized hs =>
      rw [hs.beq_zero] at h
      cases h
  · rintro ⟨negative, rfl⟩
    cases negative <;> rfl

theorem sized_signed (hpos : 0 < n) (hn : n < infinityBits) (negative : Bool) :
    Sized (if negative then .negative else .positive) n (signed negative (number n)) := by
  cases negative with
  | false => exact sized_number hpos hn
  | true =>
    obtain ⟨e, m, hm, hunpack, hpack⟩ := (sized_number hpos hn).unpack
    refine ⟨hpos, hn, ?_⟩
    change (UnpackedFloat.pack .binary64 (UnpackedFloat.neg (number n).toModel.unpack)).toNat = _
    rw [hunpack]
    exact hpack .negative

/-- What has bits up to those of infinity is a number, with either sign. -/
theorem isNaN_signed (hn : n ≤ infinityBits) (negative : Bool) : (signed negative (number n)).isNaN = false := by
  rcases Nat.eq_zero_or_pos n with rfl | hpos
  · cases negative <;> rfl
  rcases Nat.lt_or_eq_of_le hn with hlt | rfl
  · exact (sized_signed hpos hlt negative).isNaN
  · cases negative <;> rfl

/-! ## Texts -/

theorem numberText_nan : numberText NumberText.nan = "NaN" := rfl

theorem numberText_infinite (negative : Bool) :
    numberText (signed negative NumberText.infinity) = if negative then "-Infinity" else "Infinity" := by
  cases negative <;> rfl

theorem numberText_zero (negative : Bool) : numberText (signed negative 0) = "0" := by
  cases negative <;> rfl

/-- Only the sign of zero is not written. -/
theorem read_text (x : Float) : NumberText.read (numberText x) = if x == 0 then 0 else x := by
  cases kind x with
  | nan => rfl
  | infinite negative => cases negative <;> rfl
  | zero negative => cases negative <;> rfl
  | sized h =>
    rw [NumberText.read_numberText h, h.beq_zero]
    rfl

/-- The same number, but perhaps for the sign of zero. -/
def Same (x y : Float) : Prop := x = y ∨ (x == 0) = true ∧ (y == 0) = true ∨ x.isNaN = true ∧ y.isNaN = true

theorem numberText_inj : numberText x = numberText y ↔ Same x y := by
  constructor
  · intro h
    have hread := read_text x
    rw [h, read_text y] at hread
    cases hx : x == 0 <;> cases hy : y == 0
    case true.true => exact .inr (.inl ⟨hx, hy⟩)
    all_goals
      simp only [hx, hy, if_true, Bool.false_eq_true, if_false] at hread
    · exact .inl hread.symm
    · subst hread
      exact absurd hx (by decide)
    · subst hread
      exact absurd hy (by decide)
  · rintro (rfl | ⟨hx, hy⟩ | ⟨hx, hy⟩)
    · rfl
    · obtain ⟨_, rfl⟩ := beq_zero_iff.mp hx
      obtain ⟨_, rfl⟩ := beq_zero_iff.mp hy
      rw [numberText_zero, numberText_zero]
    · rw [isNaN_iff.mp hx, isNaN_iff.mp hy]

/-- What numbers are written with. -/
theorem numberText_chars {c : Char} (hc : c ∈ (numberText x).toList) :
    c.isDigit = true ∨ c ∈ "-+.eInfityNa".toList := by
  have hsome {cs : List Char} (hcs : cs.all (fun c => c.isDigit || "-+.eInfityNa".toList.contains c) = true)
      (hc : c ∈ cs) : c.isDigit = true ∨ c ∈ "-+.eInfityNa".toList := by
    have h := List.all_eq_true.mp hcs c hc
    rwa [Bool.or_eq_true, List.contains_iff_mem] at h
  cases kind x with
  | nan =>
    rw [numberText_nan] at hc
    exact hsome rfl hc
  | infinite negative =>
    rw [numberText_infinite] at hc
    cases negative
    · exact @hsome "Infinity".toList rfl hc
    · exact @hsome "-Infinity".toList rfl hc
  | zero negative =>
    rw [numberText_zero] at hc
    exact hsome rfl hc
  | sized h =>
    rw [numberText_eq h, String.toList_ofList, List.mem_append] at hc
    rcases hc with hc | hc
    · split at hc
      · obtain rfl := List.mem_singleton.mp hc
        exact .inr (by decide)
      · cases hc
    · refine ((console_numeral h).1.chars c hc).imp_right fun hmark => ?_
      simp only [List.mem_cons, List.not_mem_nil, or_false] at hmark
      rcases hmark with rfl | rfl | rfl | rfl <;> decide

/-! ## Exact values -/

/-- A finite number, exactly. -/
def toRat? (x : Float) : Option ℚ :=
  if x.isFinite then some ((if Style.isNegative x then -1 else 1) * (Binary.ofFloat x).value) else none

theorem toRat?_nan : toRat? NumberText.nan = none := rfl

theorem toRat?_infinite (negative : Bool) : toRat? (signed negative NumberText.infinity) = none := by
  cases negative <;> rfl

theorem toRat?_zero (negative : Bool) : toRat? (signed negative 0) = some 0 := by
  cases negative <;> decide +kernel

theorem toRat?_sized (h : Sized s n x) : toRat? x = some (match s with | .positive => grid n | .negative => -grid n) := by
  have hfinite : x.isFinite = true := by
    obtain ⟨e, m, hm, hunpack, -⟩ := h.unpack
    change x.toModel.unpack.isFinite = true
    rw [hunpack]
    rfl
  have hlow : n < 2 ^ 63 := h.lt.trans (by decide)
  rw [toRat?, if_pos hfinite, Style.isNegative, h.toNat, ofFloat_sized h, ← grid]
  cases s with
  | negative =>
    have hbit : Nat.pow 2 63 ≤ signBit .negative + n := Nat.le_add_right _ _
    simp [hbit]
  | positive =>
    have hbit : ¬ Nat.pow 2 63 ≤ signBit .positive + n := by
      rw [signBit, Nat.zero_add]
      exact not_le.mpr hlow
    simp [hbit]

end

end Treewalk.Decimal
