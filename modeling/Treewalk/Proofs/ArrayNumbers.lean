/-
  Treewalk.Proofs.ArrayNumbers — arrays as numbers, and the numbers of their texts.

  The number of an array is that of its only element, the text of an array is that of its elements. So the
  two ways from an array to a number meet in the element, and part there if it is a negative zero: the text
  has no sign (`HoldsNegativeZero`). Texts of functions and objects, and texts with a comma, are no numbers.

  Proved: an array is the number that its text is read as, if and only if it does not hold just a negative
  zero; then it is that zero, and its text is read as the positive one (`toNumber_array`).
-/

import Treewalk.Proofs.NumericStrings

namespace Treewalk

open Decimal

namespace NumberText

section
variable {c : Char} {cs : List Char} {s : String}

/-- Numbers have no commas. -/
theorem Numeric.no_comma (h : Numeric cs) : ',' ∉ cs := by
  have hleading {sign : List Char} {negative : Bool} (hsign : Leading sign negative) : ',' ∉ sign := by
    cases hsign <;> decide
  cases h with
  | blank => simp
  | infinity hsign =>
    rw [List.mem_append, not_or]
    exact ⟨hleading hsign, by decide⟩
  | hex hx _ hds =>
    rw [List.mem_cons, List.mem_cons, not_or, not_or]
    refine ⟨by decide, ?_, fun hc => absurd (hds _ hc) (by decide)⟩
    rcases hx with rfl | rfl <;> decide
  | decimal hsign hcs =>
    rw [List.mem_append, not_or]
    exact ⟨hleading hsign, fun hc => absurd (hcs.chars _ hc) (by decide)⟩

/-- What numbers begin with. -/
theorem Numeric.head (h : Numeric (c :: cs)) : c.isDigit = true ∨ c ∈ ['+', '-', '.', 'I'] := by
  generalize htext : c :: cs = text at h
  have hleading {sign unsigned : List Char} {negative : Bool} (hsign : Leading sign negative)
      (h : c :: cs = sign ++ unsigned) : c ∈ ['+', '-'] ∨ c :: cs = unsigned := by
    cases hsign with
    | none => exact .inr h
    | plus | minus =>
      obtain ⟨rfl, -⟩ := List.cons.inj h
      exact .inl (by decide)
  cases h with
  | blank => cases htext
  | hex _ _ _ =>
    obtain ⟨rfl, -⟩ := List.cons.inj htext
    exact .inl rfl
  | infinity hsign =>
    rcases hleading hsign htext with hc | hc
    · exact .inr (by simp only [List.mem_cons] at hc ⊢; tauto)
    · obtain ⟨rfl, -⟩ := List.cons.inj hc
      exact .inr (by decide)
  | decimal hsign hcs =>
    rcases hleading hsign htext with hc | rfl
    · exact .inr (by simp only [List.mem_cons] at hc ⊢; tauto)
    · obtain ⟨d, rest, hd, hdigit⟩ := hcs.head
      obtain ⟨rfl, -⟩ := List.cons.inj hd
      exact hdigit.imp_right fun hpoint => by rw [hpoint]; decide

theorem read_eq_nan (h : ¬ Numeric (Text.trim s.toList)) : NumberText.read s = nan := by
  rw [← isNaN_iff]
  by_contra hnan
  exact h (numeric_of_read (Bool.not_eq_true _ ▸ hnan))

theorem read_comma (h : ',' ∈ s.toList) : NumberText.read s = nan :=
  read_eq_nan fun hnumeric => hnumeric.no_comma (Text.mem_trim h rfl)

theorem read_word (h : s.toList = c :: cs) (hblank : Text.isBlank c = false)
    (hc : ¬ (c.isDigit = true ∨ c ∈ ['+', '-', '.', 'I'])) : NumberText.read s = nan := by
  refine read_eq_nan fun hnumeric => ?_
  obtain ⟨rest, hrest⟩ := Text.trim_cons cs hblank
  rw [h, hrest] at hnumeric
  exact hc hnumeric.head

end

end NumberText

namespace Value

open NumberText (nan)

/-- A negative zero, or an array of one. -/
inductive HoldsNegativeZero : Value → Prop
  | number : HoldsNegativeZero (.number (-0))
  | array {v : Value} : HoldsNegativeZero v → HoldsNegativeZero (.array [v])

/-- The number is the one its text is read as, but for the sign of a zero. -/
structure Meets (v : Value) : Prop where
  same : ¬ HoldsNegativeZero v → v.toNumber = NumberText.read v.text
  zero : HoldsNegativeZero v → v.toNumber = -0 ∧ NumberText.read v.text = 0

section
variable {v : Value}

theorem meets_of_nan (hnumber : v.toNumber = nan) (htext : NumberText.read v.text = nan) (hv : ¬ HoldsNegativeZero v) :
    Meets v :=
  ⟨fun _ => hnumber.trans htext.symm, fun h => absurd h hv⟩

theorem meets_number (x : Float) : Meets (.number x) where
  same h := by
    rw [toNumber, text, read_text]
    split
    next hzero =>
      obtain ⟨negative, rfl⟩ := beq_zero_iff.mp hzero
      cases negative with
      | false => rfl
      | true => exact absurd .number h
    next => rfl
  zero h := by
    cases h
    decide

theorem text_singleton (v : Value) : text (.array [v]) = if v.isNullish then "" else v.text := by
  rw [text, elementTexts, elementTexts, String.intercalate_singleton]

/-- An array of one converts like the element. -/
theorem Meets.array (h : Meets v) (hnumber : toNumber (.array [v]) = v.toNumber) (htext : text (.array [v]) = v.text) :
    Meets (.array [v]) where
  same hnot := by
    rw [hnumber, htext]
    exact h.same fun hv => hnot (.array hv)
  zero hv := by
    cases hv with
    | array hv =>
      rw [hnumber, htext]
      exact h.zero hv

theorem comma_mem_text (v w : Value) (vs : List Value) : ',' ∈ (text (.array (v :: w :: vs))).toList := by
  rw [text, elementTexts, elementTexts, String.intercalate_cons_cons, String.toList_append, String.toList_append]
  simp

/-- Functions and objects are no numbers, and their texts are none. -/
theorem meets_function (c : Closure) : Meets (.function c) := by
  have htext : (text (.function c)).toList = 'f' :: ("unction ".toList ++ (c.name ++ "(" ++
      ", ".intercalate (c.params.map (·.name)) ++ ") \x7b ... \x7d").toList) := by
    simp [text, closureText, String.toList_append]
  exact meets_of_nan rfl (NumberText.read_word htext rfl (by decide)) fun h => by cases h

theorem meets_native (name : String) : Meets (.native name) := by
  have htext : (text (.native name)).toList = 'f' :: ("unction ".toList ++ (name ++ "() \x7b [native code] \x7d").toList) := by
    simp [text, String.toList_append]
  exact meets_of_nan rfl (NumberText.read_word htext rfl (by decide)) fun h => by cases h

theorem meets_object (serial : Nat) (name : String) (members : List (String × Value)) :
    Meets (.object serial name members) := by
  have htext : (text (.object serial name members)).toList = '[' :: "object Object]".toList := by
    rw [text]
    rfl
  exact meets_of_nan rfl (NumberText.read_word htext rfl (by decide)) fun h => by cases h

/-- By the number of elements, and what the only one is. -/
theorem meets_array (es : List Value) : Meets (.array es) := by
  match es with
  | [] => exact ⟨fun _ => rfl, fun h => by cases h⟩
  | [.undefined] => exact ⟨fun _ => rfl, fun h => by cases h with | array h => cases h⟩
  | [.null] => exact ⟨fun _ => rfl, fun h => by cases h with | array h => cases h⟩
  | [.bool b] =>
    refine meets_of_nan rfl ?_ fun h => by cases h with | array h => cases h
    cases b <;> rfl
  | [.number x] => exact (meets_number x).array rfl (text_singleton _)
  | [.string s] => exact Meets.array ⟨fun _ => rfl, fun h => by cases h⟩ rfl (text_singleton _)
  | [.array es] => exact (meets_array es).array rfl (text_singleton _)
  | [.function c] => exact (meets_function c).array rfl (text_singleton _)
  | [.native name] => exact (meets_native name).array rfl (text_singleton _)
  | [.object serial name members] => exact (meets_object serial name members).array rfl (text_singleton _)
  | v :: w :: vs =>
    have hnumber : toNumber (.array (v :: w :: vs)) = nan := by cases v <;> rfl
    exact meets_of_nan hnumber (NumberText.read_comma (comma_mem_text v w vs)) fun h => by cases h

end

/-- An array is the number its text is read as, unless it holds just a negative zero: then it is that zero, but
    its text is read as the positive one. -/
theorem toNumber_array (es : List Value) :
    (toNumber (.array es) = NumberText.read (text (.array es)) ↔ ¬ HoldsNegativeZero (.array es)) ∧
    (HoldsNegativeZero (.array es) → toNumber (.array es) = -0 ∧ NumberText.read (text (.array es)) = 0) := by
  obtain ⟨hsame, hzero⟩ := meets_array es
  refine ⟨⟨fun h hholds => ?_, hsame⟩, hzero⟩
  obtain ⟨hnumber, htext⟩ := hzero hholds
  rw [hnumber, htext] at h
  exact absurd h (by decide)

/-- The negative zero may be any number of arrays deep. -/
theorem toNumber_array_nested : HoldsNegativeZero (.array [.array [.number (-0)]]) ∧
    toNumber (.array [.array [.number (-0)]]) = -0 ∧ NumberText.read (text (.array [.array [.number (-0)]])) = 0 :=
  have hholds : HoldsNegativeZero (.array [.array [.number (-0)]]) := .array (.array .number)
  ⟨hholds, (toNumber_array _).2 hholds⟩

/-- The sign of a zero gets lost on the way through the text. -/
theorem toNumber_array_signed :
    toNumber (.array [.number (-0)]) ≠ NumberText.read (text (.array [.number (-0)])) := by decide

end Value

end Treewalk
