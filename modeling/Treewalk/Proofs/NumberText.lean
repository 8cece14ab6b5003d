/-
  Treewalk.Proofs.NumberText — the text of a number, and the number of a text.

  `Plain` and `Scientific` are the two kinds of numerals that are written, each with the number it denotes
  exactly. Where the point goes is proved once, for numerals without an exponent (`plain_layout`): with an
  exponent the digits are those of a number whose point is behind the first (`scientific_layout`).

  Proved: the text of a finite number other than zero denotes the shortest decimal that is read as it, has
  an exponent if and only if its point is far off, and is read as the number, in a string and as a token
  (`numberText_exact`).
-/

import Treewalk.Proofs.Literals
import Treewalk.Proofs.Respacing
import Treewalk.Proofs.ShortestDigits

namespace Treewalk

open Lexer (Digits Fraction Exponent Mark Spells)

namespace Decimal

/-! ## Numerals -/

/-- A numeral without an exponent. A point has digits on both sides. -/
inductive Plain : List Char → ℚ → Prop
  | whole {ws : List Char} : ws ≠ [] → Digits ws → Plain ws (natOf ws)
  | pointed {ws fs : List Char} : ws ≠ [] → Digits ws → fs ≠ [] → Digits fs →
      Plain (ws ++ '.' :: fs) (natOf ws + natOf fs / 10 ^ fs.length)

/-- A whole number behind its sign. -/
inductive Signed : List Char → ℤ → Prop
  | plus {ds : List Char} : ds ≠ [] → Digits ds → Signed ('+' :: ds) (natOf ds)
  | minus {ds : List Char} : ds ≠ [] → Digits ds → Signed ('-' :: ds) (-(natOf ds : ℤ))

/-- A number from one to ten, and an exponent with its sign. -/
inductive Scientific : List Char → ℚ → Prop
  | intro {cs es : List Char} {v : ℚ} {e : ℤ} : Plain cs v → 1 ≤ v → v < 10 → Signed es e →
      Scientific (cs ++ 'e' :: es) (v * 10 ^ e)

/-- A numeral of either kind. -/
def Numeral (cs : List Char) (v : ℚ) : Prop := Plain cs v ∨ Scientific cs v

section
variable {c : Char} {cs ds es fs ws tail : List Char} {v : ℚ} {e : ℤ}

theorem Plain.mantissa (h : Plain cs v) : Mantissa cs v := by
  cases h with
  | whole hne hws => exact .whole hne hws
  | pointed hne hws _ hfs => exact .pointed (.inl hne) hws hfs

theorem Signed.whole (h : Signed es e) : Whole es e := by
  cases h with
  | plus hne hds => exact .plus hne hds
  | minus hne hds => exact .minus hne hds

/-- Only a numeral of one kind has the mark of an exponent. -/
theorem Plain.not_mem (h : Plain cs v) : 'e' ∉ cs := by
  intro he
  rcases h.mantissa.chars _ he with h | h <;> exact absurd h (by decide)

theorem Scientific.mem (h : Scientific cs v) : 'e' ∈ cs := by
  cases h
  exact List.mem_append_right _ List.mem_cons_self

theorem Numeral.chars (h : Numeral cs v) : ∀ c ∈ cs, c.isDigit = true ∨ c ∈ ['.', 'e', '+', '-'] := by
  rcases h with h | ⟨h, -, -, hes⟩
  · exact fun c hc => (h.mantissa.chars c hc).imp_right fun hpoint => by rw [hpoint]; decide
  · intro c hc
    rcases List.mem_append.mp hc with hc | hc
    · exact (h.mantissa.chars c hc).imp_right fun hpoint => by rw [hpoint]; decide
    · rcases List.mem_cons.mp hc with rfl | hc
      · exact .inr (by decide)
      · exact (hes.whole.chars c hc).imp_right fun hsign => by rcases hsign with rfl | rfl <;> decide

theorem Numeral.visible (h : Numeral cs v) (hc : c ∈ cs) : Text.isBlank c = false := by
  rcases h.chars c hc with hdigit | hmark
  · have hrange := Char.isDigit_iff_toNat.mp hdigit
    simp only [Char.reduceToNat] at hrange
    exact Text.isBlank_visible (by omega) (by omega)
  · simp only [List.mem_cons, List.not_mem_nil, or_false] at hmark
    rcases hmark with rfl | rfl | rfl | rfl <;> decide

theorem Plain.head (h : Plain cs v) (tail : List Char) : ∃ c ∈ (cs ++ tail).head?, c.isDigit = true := by
  have hfirst {ws : List Char} (tail : List Char) (hne : ws ≠ []) (hws : Digits ws) :
      ∃ c ∈ (ws ++ tail).head?, c.isDigit = true := by
    obtain ⟨c, ws, rfl⟩ := List.exists_cons_of_ne_nil hne
    exact ⟨c, rfl, hws c List.mem_cons_self⟩
  cases h with
  | whole hne hws => exact hfirst tail hne hws
  | pointed hne hws _ _ =>
    rw [List.append_assoc]
    exact hfirst _ hne hws

/-- A numeral begins with a digit and ends with one. -/
theorem Numeral.ends (h : Numeral cs v) : (∃ c ∈ cs.head?, c.isDigit = true) ∧ ∃ c ∈ cs.getLast?, c.isDigit = true := by
  have hlast (front : List Char) {ds : List Char} (hne : ds ≠ []) (hds : Digits ds) :
      ∃ c ∈ (front ++ ds).getLast?, c.isDigit = true := by
    refine ⟨ds.getLast hne, ?_, hds _ (List.getLast_mem hne)⟩
    rw [List.getLast?_append_of_ne_nil _ hne, List.getLast?_eq_getLast_of_ne_nil hne]
    rfl
  rcases h with h | ⟨h, -, -, hes⟩
  · refine ⟨by simpa using h.head [], ?_⟩
    cases h with
    | whole hne hws => exact hlast [] hne hws
    | pointed _ _ hne hfs =>
      rw [List.append_cons]
      exact hlast _ hne hfs
  · refine ⟨h.head _, ?_⟩
    rw [List.append_cons]
    cases hes with
    | plus hne hds | minus hne hds =>
      rw [List.append_cons]
      exact hlast _ hne hds

/-! ## Reading -/

/-- What is written for a number is a literal, of those without a sign. -/
theorem Numeral.literal (h : Numeral cs v) : Literal cs v := by
  rcases h with h | ⟨h, -, -, hes⟩
  · simpa using Literal.intro h.mantissa .none
  · exact .intro h.mantissa (.some (.inl rfl) hes.whole)

theorem Plain.spells (h : Plain cs v) (htail : Exponent tail) : Spells .number (cs ++ tail) := by
  cases h with
  | whole hne hws =>
    obtain ⟨c, ws, rfl⟩ := List.exists_cons_of_ne_nil hne
    exact .number (hws c List.mem_cons_self) (fun d hd => hws d (List.mem_cons_of_mem c hd)) .none htail
  | pointed hne hws _ hfs =>
    obtain ⟨c, ws, rfl⟩ := List.exists_cons_of_ne_nil hne
    rw [List.append_assoc]
    exact .number (hws c List.mem_cons_self) (fun d hd => hws d (List.mem_cons_of_mem c hd)) (.digits hfs) htail

/-- By the rules of tokens a numeral is a number. -/
theorem Numeral.spells (h : Numeral cs v) : Spells .number cs := by
  rcases h with h | ⟨h, -, -, hes⟩
  · simpa using h.spells .none
  · refine h.spells ?_
    cases hes with
    | plus hne hds => exact .some (.signed (.inl rfl) (.inl rfl)) hne hds
    | minus hne hds => exact .some (.signed (.inl rfl) (.inr rfl)) hne hds

end

/-! ## Layout -/

namespace Style

section
variable {st : Style} {d : Decimal}

theorem digits_zeros (n : ℤ) : Digits (zeros n) := by
  intro c hc
  rw [List.eq_of_mem_replicate hc]
  decide

/-- Wherever the point goes, behind the digits, between them or in front, the value is the same. -/
theorem plain_layout (hmark : st.wholeMark = false) (d : Decimal) :
    Plain (st.plain (digitChars d.digits) d.point) d.value := by
  have hdigits : Digits (digitChars d.digits) := fun c hc => isDigit_of_mem_digitChars hc
  have hne := digitChars_ne_nil d.digits
  have hvalue := natOf_digitChars d.digits
  have hpoint : d.point = (digitChars d.digits).length + d.scale := rfl
  generalize digitChars d.digits = ds at hdigits hne hvalue hpoint
  unfold plain
  split
  next hbehind =>
    have hscale : d.value = (natOf (ds ++ zeros (d.point - ds.length)) : ℚ) := by
      rw [natOf_append, zeros, natOf_zeros, hvalue, List.length_replicate, Decimal.value]
      rw [show d.scale = ((d.point - ds.length).toNat : ℤ) by omega, zpow_natCast]
      push_cast
      ring
    rw [hmark, hscale]
    simp only [Bool.false_eq_true, if_false, List.append_nil]
    refine .whole (by simp [hne]) fun c hc => ?_
    exact (List.mem_append.mp hc).elim (hdigits c) (digits_zeros _ c)
  next hnot =>
    have hscale (ws fs : List Char) (hfs : (fs.length : ℤ) = -d.scale) (hws : natOf (ws ++ fs) = d.digits) :
        d.value = natOf ws + natOf fs / 10 ^ fs.length := by
      rw [natOf_append] at hws
      rw [Decimal.value, ← hws, show d.scale = -(fs.length : ℤ) by omega, zpow_neg, zpow_natCast]
      push_cast
      field_simp
    split
    next hbetween =>
      have hcut : (ds.drop d.point.toNat).length = -d.scale := by
        rw [List.length_drop]
        omega
      rw [hscale _ _ hcut (by rw [List.take_append_drop, hvalue]), List.append_assoc, List.singleton_append]
      refine .pointed ?_ (fun c hc => hdigits c (List.mem_of_mem_take hc)) ?_
        fun c hc => hdigits c (List.mem_of_mem_drop hc)
      · rw [← List.length_pos_iff, List.length_take]
        have := List.length_pos_iff.mpr hne
        omega
      · rw [← List.length_pos_iff, List.length_drop]
        omega
    next hfront =>
      have hzeros : natOf ('0' :: (zeros (-d.point) ++ ds)) = d.digits := by
        rw [show '0' :: (zeros (-d.point) ++ ds) = List.replicate ((-d.point).toNat + 1) '0' ++ ds from rfl]
        rw [natOf_append, natOf_zeros, hvalue, Nat.mul_zero, Nat.zero_add]
      have hcut : ((zeros (-d.point) ++ ds).length : ℤ) = -d.scale := by
        rw [List.length_append, zeros, List.length_replicate]
        push_cast
        omega
      rw [hscale ['0'] _ hcut hzeros]
      change Plain (['0'] ++ '.' :: (zeros (-d.point) ++ ds)) _
      refine .pointed (by simp) (by simp [Digits]) (by simp [hne]) fun c hc => ?_
      exact (List.mem_append.mp hc).elim (digits_zeros _ c) (hdigits c)

theorem exponent_layout (hplus : st.plus = true) (e : ℤ) : Signed (st.exponentText e) e := by
  have hdigits : Digits (digitChars e.natAbs) := fun c hc => isDigit_of_mem_digitChars hc
  have hvalue := natOf_digitChars e.natAbs
  unfold exponentText
  rw [hplus]
  rcases lt_or_ge e 0 with hneg | hpos
  · rw [if_pos hneg]
    have h := Signed.minus (digitChars_ne_nil _) hdigits
    rwa [hvalue, show -(e.natAbs : ℤ) = e by omega] at h
  · rw [if_neg (not_lt.mpr hpos)]
    have h := Signed.plus (digitChars_ne_nil _) hdigits
    rwa [hvalue, show (e.natAbs : ℤ) = e by omega] at h

/-- With the point behind the first digit it is a number from one to ten. -/
theorem scientific_layout (hmark : st.wholeMark = false) (hplus : st.plus = true) (h : d.digits ≠ 0) :
    Scientific (st.scientific (digitChars d.digits) d.point) d.value := by
  obtain ⟨one, hone⟩ : ∃ one : Decimal, one = ⟨d.digits, 1 - (digitChars d.digits).length⟩ := ⟨_, rfl⟩
  have hpoint : one.point = 1 := by
    rw [hone, Decimal.point]
    ring
  have hvalue : d.value = one.value * 10 ^ (d.point - 1) := by
    rw [hone, Decimal.value, Decimal.value, mul_assoc, ← zpow_add₀ (by norm_num), Decimal.point]
    congr 2
    ring
  have htext : st.scientific (digitChars d.digits) d.point =
      st.plain (digitChars one.digits) one.point ++ 'e' :: st.exponentText (d.point - 1) := by
    have hpos := length_digitChars_pos d.digits
    rw [scientific, plain, hpoint, show one.digits = d.digits by rw [hone]]
    by_cases hlong : (digitChars d.digits).length ≤ 1
    · rw [if_pos hlong, if_pos (by omega), List.take_of_length_le hlong, hmark]
      simp [zeros, show (digitChars d.digits).length = 1 by omega]
    · rw [if_neg hlong, if_neg (by omega)]
      simp
  have hlow := point_le_value (d := one) (by rw [hone]; exact h)
  have hhigh := one.value_lt_point
  rw [hpoint] at hlow hhigh
  rw [htext, hvalue]
  exact .intro (plain_layout hmark one) (by simpa using hlow) (by simpa using hhigh) (exponent_layout hplus _)

/-- On the console there is an exponent if and only if it is below -6 or above 20. -/
theorem console_layout (h : d.digits ≠ 0) :
    (Plain (console.layout d) d.value ↔ -6 ≤ d.point - 1 ∧ d.point - 1 ≤ 20) ∧
      (Scientific (console.layout d) d.value ↔ ¬ (-6 ≤ d.point - 1 ∧ d.point - 1 ≤ 20)) := by
  have hplain : console.isPlain d.point = true ↔ -6 ≤ d.point - 1 ∧ d.point - 1 ≤ 20 := by
    simp only [isPlain, console, Option.all_some, Bool.and_eq_true, decide_eq_true_iff]
    omega
  rw [layout]
  split
  next hnear =>
    have hlayout := @plain_layout console rfl d
    have hyes := hplain.mp hnear
    exact ⟨iff_of_true hlayout hyes, iff_of_false (fun hs => hlayout.not_mem hs.mem) (not_not_intro hyes)⟩
  next hfar =>
    have hlayout := @scientific_layout console d rfl rfl h
    have hnot := mt hplain.mpr hfar
    exact ⟨iff_of_false (fun hp => hp.not_mem hlayout.mem) hnot, iff_of_true hlayout hnot⟩

end

end Style

/-! ## Numbers -/

/-- The shortest decimal that is read as a number, of those the nearest, without zeros at the end of its digits. -/
structure Shortest (x : Float) (d : Decimal) : Prop where
  reads : d.toFloat = x
  trimmed : d.digits % 10 ≠ 0
  fewest : ∀ y : Decimal, y.toFloat = x → (digitChars d.digits).length ≤ (digitChars y.digits).length
  nearest : ∀ y : Decimal, y.toFloat = x → (digitChars d.digits).length = (digitChars y.digits).length →
    |(Binary.ofFloat x).value - d.value| ≤ |(Binary.ofFloat x).value - y.value|

theorem Shortest.digits_ne_zero {x : Float} {d : Decimal} (h : Shortest x d) : d.digits ≠ 0 :=
  fun hzero => h.trimmed (by rw [hzero])

section
variable {x : Float} {d : Decimal} {n : Nat} {s : Float.Model.UnpackedFloat.Sign}

theorem toFloat_eq_iff (hn : n < infinityBits) : d.toFloat = number n ↔ RoundsTo d.value n := by
  obtain ⟨j, hj, hread⟩ := d.toFloat_rounds
  rw [hread, number_inj hj.le hn.le]
  exact ⟨fun h => h ▸ hj, fun h => hj.unique h⟩

theorem ofFloat_sized (h : Sized s n x) : Binary.ofFloat x = Binary.ofBits n := by
  have hlow : n < 2 ^ 63 := h.lt.trans (by decide)
  have hsign : signBit s % 2 ^ 63 = 0 := by cases s <;> decide
  rw [Binary.ofFloat_eq, h.toNat, show (signBit s + n) % 2 ^ 63 = n by omega]

/-- The decimal that is written is the one for the size of the number. -/
theorem shortest_ofFloat (h : Sized s n x) : Shortest x.abs (ofFloat x) := by
  obtain ⟨hread, htrim, hleast⟩ := Binary.shortest_spec h.pos h.lt
  have hsize : (Binary.ofFloat x.abs).value = grid n := by rw [h.abs, ofFloat_sized (sized_number h.pos h.lt), grid]
  rw [ofFloat, ofFloat_sized h]
  refine ⟨?_, htrim, fun y hy => ?_, fun y hy => ?_⟩
  · rw [h.abs, toFloat_eq_iff h.lt]
    exact hread
  · rw [h.abs, toFloat_eq_iff h.lt] at hy
    exact (hleast y hy).1
  · rw [h.abs, toFloat_eq_iff h.lt] at hy
    rw [hsize]
    exact (hleast y hy).2

theorem Style.write_sized (st : Style) (h : Sized s n x) :
    st.write x = String.ofList ((if x < 0 then ['-'] else []) ++ st.layout (ofFloat x)) := by
  have hnegative : Style.isNegative x = decide (x < 0) := by
    have hlow : n < 2 ^ 63 := h.lt.trans (by decide)
    rw [Style.isNegative, decide_eq_decide, h.lt_zero_iff, h.toNat]
    cases s <;> simp [signBit]
    omega
  rw [Style.write, h.isNaN, h.beq_zero, h.isInf, hnegative]
  simp

theorem numberText_eq (h : Sized s n x) :
    numberText x = String.ofList ((if x < 0 then ['-'] else []) ++ Style.console.layout (ofFloat x)) :=
  Style.console.write_sized h

/-- Any numeral of the decimal that is written is read as the size. -/
theorem Numeral.read_sized {cs : List Char} (hcs : Numeral cs (ofFloat x).value) (h : Sized s n x) :
    ∃ d, read? cs = some d ∧ d.toFloat = number n := by
  obtain ⟨d, hread, hvalue⟩ := hcs.literal.read
  refine ⟨d, hread, ?_⟩
  rw [toFloat_eq_iff h.lt, hvalue, ← toFloat_eq_iff h.lt, ← h.abs]
  exact (shortest_ofFloat h).reads

/-- What is written for the size is a numeral, and is read as the size. -/
theorem console_numeral (h : Sized s n x) : Numeral (Style.console.layout (ofFloat x)) (ofFloat x).value ∧
    ∃ d, read? (Style.console.layout (ofFloat x)) = some d ∧ d.toFloat = number n := by
  obtain ⟨hplain, hscientific⟩ := Style.console_layout (shortest_ofFloat h).digits_ne_zero
  have hnumeral : Numeral (Style.console.layout (ofFloat x)) (ofFloat x).value := (em _).imp hplain.mpr hscientific.mpr
  exact ⟨hnumeral, hnumeral.read_sized h⟩

theorem numberText_ends (h : Sized s n x) :
    (numberText x).toList.head? ≠ some '.' ∧ (numberText x).toList.getLast? ≠ some '.' := by
  obtain ⟨⟨c, hfirst, hc⟩, c', hlast, hc'⟩ := (console_numeral h).1.ends
  rw [numberText_eq h, String.toList_ofList]
  generalize Style.console.layout (ofFloat x) = body at hfirst hlast
  constructor
  · split
    · simp
    · rw [List.nil_append, Option.mem_def.mp hfirst]
      rintro ⟨⟩
      cases hc
  · have hne : body ≠ [] := by
      rintro rfl
      cases hlast
    rw [List.getLast?_append_of_ne_nil _ hne, Option.mem_def.mp hlast]
    rintro ⟨⟩
    cases hc'

/-- Without a minus the text is one token. -/
theorem lex_numberText (h : Sized .positive n x) :
    lex (numberText x) = .ok (Lexer.oneToken (.number x) (numberText x).utf8ByteSize) := by
  obtain ⟨hnumeral, d, hread, hsize⟩ := console_numeral h
  have htext := numberText_eq h
  rw [if_neg (by simp [h.lt_zero_iff]), List.nil_append] at htext
  rw [htext, ← Lexer.byteLength_toList, String.toList_ofList]
  refine Lexer.lex_spelled hnumeral.spells fun span => ?_
  simp only [Lexer.kind, hread, Option.map_some, hsize, ← h.eq_number]

end

end Decimal

namespace NumberText

open Decimal

section
variable {d : Decimal} {cs : List Char} {v : ℚ}

/-- A numeral in a string is read as it is alone, and after a minus as the opposite. -/
theorem read_numeral (h : Numeral cs v) (hd : read? cs = some d) (negative : Bool) :
    NumberText.read (String.ofList ((if negative then ['-'] else []) ++ cs)) = signed negative d.toFloat := by
  have hsign : Leading (if negative then ['-'] else []) negative := by
    cases negative
    · exact .none
    · exact .minus
  refine read_literal ?_ hsign h.literal hd
  rw [String.toList_ofList]
  refine Text.trim_eq_self fun c hc => ?_
  rcases List.mem_append.mp hc with hc | hc
  · cases negative <;> simp_all [Text.isBlank]
  · exact h.visible hc

/-- A numeral of the decimal that is written, behind the sign of the number, is read as the number. -/
theorem read_sized {s : Float.Model.UnpackedFloat.Sign} {n : Nat} {x : Float} (h : Sized s n x)
    (hcs : Numeral cs (ofFloat x).value) : NumberText.read (String.ofList ((if x < 0 then ['-'] else []) ++ cs)) = x := by
  obtain ⟨d, hread, hsize⟩ := hcs.read_sized h
  have hback := read_numeral hcs hread (decide (x < 0))
  simp only [decide_eq_true_iff] at hback
  rw [hback, hsize]
  cases s with
  | positive =>
    rw [decide_eq_false (by simp [h.lt_zero_iff])]
    exact h.eq_number.symm
  | negative =>
    rw [decide_eq_true (h.lt_zero_iff.mpr rfl)]
    exact h.eq_neg_number.symm

/-- The text of a number is read as the number. -/
theorem read_numberText {s : Float.Model.UnpackedFloat.Sign} {n : Nat} {x : Float} (h : Sized s n x) :
    NumberText.read (numberText x) = x := by
  rw [numberText_eq h, read_sized h (console_numeral h).1]

end

end NumberText

namespace Decimal

/-- The text of a finite number other than zero denotes the shortest decimal that is read as it, exactly. It
    has an exponent, with its sign, if and only if that is below -6 or above 20, it has no point at its ends, it is
    read as the same number, and without a minus it is one token. -/
theorem numberText_exact {x : Float} (hfinite : x.isFinite = true) (hzero : (x == 0) = false) :
    ∃ (d : Decimal) (body : List Char),
    Shortest x.abs d ∧ numberText x = String.ofList ((if x < 0 then ['-'] else []) ++ body) ∧
    (Plain body d.value ↔ -6 ≤ d.point - 1 ∧ d.point - 1 ≤ 20) ∧
    (Scientific body d.value ↔ ¬ (-6 ≤ d.point - 1 ∧ d.point - 1 ≤ 20)) ∧
    (numberText x).toList.head? ≠ some '.' ∧ (numberText x).toList.getLast? ≠ some '.' ∧
    NumberText.read (numberText x) = x ∧
    (0 < x → lex (numberText x) = .ok (Lexer.oneToken (.number x) (numberText x).utf8ByteSize)) := by
  obtain ⟨s, n, h⟩ := exists_sized hfinite hzero
  have hshortest := shortest_ofFloat h
  obtain ⟨hplain, hscientific⟩ := Style.console_layout hshortest.digits_ne_zero
  obtain ⟨hfirst, hlast⟩ := numberText_ends h
  refine ⟨ofFloat x, Style.console.layout (ofFloat x), hshortest, numberText_eq h, hplain, hscientific, hfirst, hlast,
    NumberText.read_numberText h, fun hpos => ?_⟩
  obtain rfl := h.zero_lt_iff.mp hpos
  exact lex_numberText h

/-- From `10 ^ 21` on there is an exponent. -/
theorem numberText_exact_sextillion : numberText (number 0x444b1ae4d6e2ef50) = "1e+21" ∧ ∃ (d : Decimal) (body : List Char),
    Shortest (number 0x444b1ae4d6e2ef50).abs d ∧
    numberText (number 0x444b1ae4d6e2ef50) = String.ofList ((if number 0x444b1ae4d6e2ef50 < 0 then ['-'] else []) ++ body) ∧
    (Plain body d.value ↔ -6 ≤ d.point - 1 ∧ d.point - 1 ≤ 20) ∧
    (Scientific body d.value ↔ ¬ (-6 ≤ d.point - 1 ∧ d.point - 1 ≤ 20)) ∧
    (numberText (number 0x444b1ae4d6e2ef50)).toList.head? ≠ some '.' ∧
    (numberText (number 0x444b1ae4d6e2ef50)).toList.getLast? ≠ some '.' ∧
    NumberText.read (numberText (number 0x444b1ae4d6e2ef50)) = number 0x444b1ae4d6e2ef50 ∧
    (0 < number 0x444b1ae4d6e2ef50 → lex (numberText (number 0x444b1ae4d6e2ef50)) =
      .ok (Lexer.oneToken (.number (number 0x444b1ae4d6e2ef50)) (numberText (number 0x444b1ae4d6e2ef50)).utf8ByteSize)) :=
  ⟨by decide +kernel, numberText_exact (by decide +kernel) (by decide +kernel)⟩

end Decimal

end Treewalk
