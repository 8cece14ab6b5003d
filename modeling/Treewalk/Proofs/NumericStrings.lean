/-
  Treewalk.Proofs.NumericStrings — which strings are numbers.

  `Numeric cs`: the text is empty, infinity or a decimal literal behind at most one sign, or hexadecimal
  digits behind `0x` and no sign.

  Proved: of a string without the blanks at its ends (`trim_spec`), these and no others are read as a
  number; an empty one as zero, a literal as the number nearest to what it denotes (`read_numeric`).
-/

import Treewalk.Proofs.NumberKinds

namespace Treewalk

namespace Text

/-- What is cut off at the ends is blank, and what is left neither begins nor ends with a blank. -/
theorem trim_spec (cs : List Char) : (∃ front back, cs = front ++ trim cs ++ back ∧
    (∀ c ∈ front, isBlank c = true) ∧ ∀ c ∈ back, isBlank c = true) ∧
    (∀ c ∈ (trim cs).head?, isBlank c = false) ∧ ∀ c ∈ (trim cs).getLast?, isBlank c = false := by
  have hend (ds : List Char) : ∀ c ∈ (ds.dropWhile isBlank).head?, isBlank c = false := by
    intro c hc
    have h := List.head?_dropWhile_not isBlank ds
    rw [Option.mem_def.mp hc] at h
    simpa using h
  obtain ⟨ds, hds⟩ : ∃ ds, cs.dropWhile isBlank = ds := ⟨_, rfl⟩
  have htrim : trim cs = (ds.reverse.dropWhile isBlank).reverse := by rw [trim, hds]
  have hsplit : ds = trim cs ++ (ds.reverse.takeWhile isBlank).reverse := by
    rw [htrim, ← List.reverse_append, List.takeWhile_append_dropWhile, List.reverse_reverse]
  refine ⟨⟨cs.takeWhile isBlank, (ds.reverse.takeWhile isBlank).reverse, ?_, fun c hc => List.mem_takeWhile_imp hc,
    fun c hc => List.mem_takeWhile_imp (List.mem_reverse.mp hc)⟩, fun c hc => ?_, fun c hc => ?_⟩
  · rw [List.append_assoc, ← hsplit, ← hds, List.takeWhile_append_dropWhile]
  · refine hend cs c ?_
    rw [hds, hsplit]
    exact List.mem_head?_append_of_mem_head? hc
  · rw [htrim, List.getLast?_reverse] at hc
    exact hend ds.reverse c hc

/-- Characters other than blanks are not cut off. -/
theorem mem_trim {cs : List Char} {c : Char} (hc : c ∈ cs) (hblank : isBlank c = false) : c ∈ trim cs := by
  obtain ⟨⟨front, back, hsplit, hfront, hback⟩, -⟩ := trim_spec cs
  rw [hsplit, List.mem_append, List.mem_append] at hc
  rcases hc with (hc | hc) | hc
  · rw [hfront c hc] at hblank
    cases hblank
  · exact hc
  · rw [hback c hc] at hblank
    cases hblank

theorem trim_cons {c : Char} (cs : List Char) (hblank : isBlank c = false) : ∃ rest, trim (c :: cs) = c :: rest := by
  obtain ⟨⟨front, back, hsplit, hfront, -⟩, -⟩ := trim_spec (c :: cs)
  obtain ⟨d, rest, hd⟩ := List.exists_cons_of_ne_nil (List.ne_nil_of_mem (mem_trim List.mem_cons_self hblank))
  cases front with
  | nil =>
    rw [hd] at hsplit
    exact ⟨rest, by rw [hd, (List.cons.inj hsplit).1]⟩
  | cons e front =>
    rw [(List.cons.inj hsplit).1, hfront e List.mem_cons_self] at hblank
    cases hblank

end Text

namespace NumberText

open Decimal
open Escape (isHexDigit)

inductive Numeric : List Char → Prop
  | blank : Numeric []
  | infinity {sign : List Char} {negative : Bool} : Leading sign negative → Numeric (sign ++ "Infinity".toList)
  | hex {x : Char} {ds : List Char} : x = 'x' ∨ x = 'X' → ds ≠ [] → (∀ d ∈ ds, isHexDigit d = true) →
      Numeric ('0' :: x :: ds)
  | decimal {sign cs : List Char} {negative : Bool} {v : ℚ} : Leading sign negative → Literal cs v → Numeric (sign ++ cs)

section
variable {cs ds sign : List Char} {negative : Bool} {s : String} {v : ℚ} {x : Char}

theorem read_blank (htrim : Text.trim s.toList = []) : NumberText.read s = 0 := by rw [NumberText.read, htrim]

theorem read_infinity (hsign : Leading sign negative) (htrim : Text.trim s.toList = sign ++ "Infinity".toList) :
    NumberText.read s = signed negative infinity := by
  rw [NumberText.read, htrim]
  cases hsign <;> rfl

theorem read_hex (hx : x = 'x' ∨ x = 'X') (htrim : Text.trim s.toList = '0' :: x :: ds) : NumberText.read s = hex ds := by
  rw [NumberText.read, htrim]
  rcases hx with rfl | rfl <;> rfl

/-- A literal is read as the number nearest to what it denotes. -/
theorem read_decimal (hsign : Leading sign negative) (h : Literal cs v) (htrim : Text.trim s.toList = sign ++ cs) :
    ∃ j, RoundsTo v j ∧ NumberText.read s = signed negative (number j) := by
  obtain ⟨d, hd, rfl⟩ := h.read
  obtain ⟨j, hj, hread⟩ := d.toFloat_rounds
  exact ⟨j, hj, hread ▸ read_literal htrim hsign h hd⟩

theorem hex_isNaN : (hex ds).isNaN = false ↔ ds ≠ [] ∧ ∀ d ∈ ds, isHexDigit d = true := by
  constructor
  · intro h
    unfold hex at h
    split at h
    next hds => exact ⟨hds.1, List.all_eq_true.mp hds.2⟩
    next => exact absurd h (by decide)
  · rintro ⟨hne, hds⟩
    obtain ⟨j, hj, hnumber⟩ := exists_ofNat (kept ds)
    rw [hex_eq hne hds, hnumber]
    exact isNaN_signed hj.le false

theorem numeric_of_decimal (h : (decimal cs).isNaN = false) : Numeric cs := by
  obtain ⟨sign, negative, unsigned, rfl, hsign, hsplit⟩ := splitSign_cases cs
  rw [decimal, hsplit] at h
  simp only at h
  split at h
  next heq => exact heq ▸ .infinity hsign
  next =>
    cases hread : read? unsigned with
    | some d => exact .decimal hsign (read?_sound hread)
    | none =>
      simp only [hread] at h
      exact absurd h (by decide)

theorem numeric_of_read (h : (NumberText.read s).isNaN = false) : Numeric (Text.trim s.toList) := by
  unfold NumberText.read at h
  split at h
  next heq => exact heq ▸ .blank
  next ds heq =>
    obtain ⟨hne, hds⟩ := hex_isNaN.mp h
    exact heq ▸ .hex (.inl rfl) hne hds
  next ds heq =>
    obtain ⟨hne, hds⟩ := hex_isNaN.mp h
    exact heq ▸ .hex (.inr rfl) hne hds
  next => exact numeric_of_decimal h

theorem Numeric.read (h : Numeric (Text.trim s.toList)) : (NumberText.read s).isNaN = false := by
  generalize htrim : Text.trim s.toList = cs at h
  cases h with
  | blank =>
    rw [read_blank htrim]
    rfl
  | @infinity sign negative hsign =>
    rw [read_infinity hsign htrim]
    cases negative <;> rfl
  | hex hx hne hds =>
    rw [read_hex hx htrim]
    exact hex_isNaN.mpr ⟨hne, hds⟩
  | decimal hsign h =>
    obtain ⟨j, hj, hread⟩ := read_decimal hsign h htrim
    rw [hread]
    exact isNaN_signed hj.le _

end

/-- A string is read as a number if and only if it is numeric, blanks at its ends apart. Nothing but blanks
    is zero, and a literal is the number nearest to what it denotes, with its sign. -/
theorem read_numeric (s : String) :
    ((NumberText.read s).isNaN = false ↔ Numeric (Text.trim s.toList)) ∧
    (Text.trim s.toList = [] → NumberText.read s = 0) ∧
    ∀ {sign cs : List Char} {negative : Bool} {v : ℚ}, Leading sign negative → Literal cs v →
      Text.trim s.toList = sign ++ cs → ∃ j, RoundsTo v j ∧ NumberText.read s = signed negative (number j) :=
  ⟨⟨numeric_of_read, Numeric.read⟩, read_blank, read_decimal⟩

/-- A sign, no digits in front of the point, an exponent, and blanks that are not ASCII. -/
theorem read_numeric_pointed : let s := "\u2003-.5E+3\u0085"
    Text.trim s.toList = ['-'] ++ ".5E+3".toList ∧ Leading ['-'] true ∧ Literal ".5E+3".toList (5 / 10 * 10 ^ (3 : ℤ)) ∧
    (NumberText.read s).isNaN = false ∧
    ∃ j, RoundsTo (5 / 10 * 10 ^ (3 : ℤ)) j ∧ NumberText.read s = signed true (number j) := by
  intro s
  have htrim : Text.trim s.toList = ['-'] ++ ".5E+3".toList := by decide
  have hliteral : Literal ".5E+3".toList (5 / 10 * 10 ^ (3 : ℤ)) := by
    have hm : Mantissa ['.', '5'] (5 / 10) := by
      have h := @Mantissa.pointed [] ['5'] (.inr (by simp)) (by simp [Lexer.Digits]) (by simp [Lexer.Digits])
      simpa [natOf, digitValue] using h
    have he : Power ['E', '+', '3'] 3 := .some (.inr rfl) (@Whole.plus ['3'] (by simp) (by simp [Lexer.Digits]))
    exact .intro hm he
  obtain ⟨hnumeric, -, hvalue⟩ := read_numeric s
  exact ⟨htrim, .minus, hliteral, hnumeric.mpr (htrim ▸ .decimal .minus hliteral), hvalue .minus hliteral htrim⟩

end NumberText

end Treewalk
