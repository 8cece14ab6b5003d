/-
  Treewalk.Proofs.Literals — decimal literals without a sign, and how they are read.

  `Literal cs v`: the text is digits with a point among them, in front of them or behind them, or none, and
  perhaps an exponent; `v` is the number it denotes, exactly. Proved: these texts are the ones that are
  read, each as a decimal of that value (`read?_sound`, `Literal.read`).
-/

import Treewalk.Proofs.Lexemes
import Treewalk.Proofs.Numerals

namespace Treewalk

namespace Decimal

open Lexer (Digits)

/-! ## Literals -/

/-- A whole number, with a sign or without. -/
inductive Whole : List Char → ℤ → Prop
  | plain {ds : List Char} : ds ≠ [] → Digits ds → Whole ds (natOf ds)
  | plus {ds : List Char} : ds ≠ [] → Digits ds → Whole ('+' :: ds) (natOf ds)
  | minus {ds : List Char} : ds ≠ [] → Digits ds → Whole ('-' :: ds) (-(natOf ds : ℤ))

/-- A power of ten by its exponent, or nothing. -/
inductive Power : List Char → ℤ → Prop
  | none : Power [] 0
  | some {m : Char} {es : List Char} {e : ℤ} : m = 'e' ∨ m = 'E' → Whole es e → Power (m :: es) e

/-- Digits, and perhaps a point. -/
inductive Mantissa : List Char → ℚ → Prop
  | whole {ws : List Char} : ws ≠ [] → Digits ws → Mantissa ws (natOf ws)
  | pointed {ws fs : List Char} : ws ≠ [] ∨ fs ≠ [] → Digits ws → Digits fs →
      Mantissa (ws ++ '.' :: fs) (natOf ws + natOf fs / 10 ^ fs.length)

inductive Literal : List Char → ℚ → Prop
  | intro {ms es : List Char} {v : ℚ} {e : ℤ} : Mantissa ms v → Power es e → Literal (ms ++ es) (v * 10 ^ e)

section
variable {cs ds es fs ms tail ws : List Char} {d : Decimal} {e : ℤ} {n : Nat} {v : ℚ}

theorem Mantissa.chars (h : Mantissa ms v) : ∀ c ∈ ms, c.isDigit = true ∨ c = '.' := by
  cases h with
  | whole _ hws => exact fun c hc => .inl (hws c hc)
  | pointed _ hws hfs =>
    intro c hc
    rcases List.mem_append.mp hc with hc | hc
    · exact .inl (hws c hc)
    · rcases List.mem_cons.mp hc with rfl | hc
      · exact .inr rfl
      · exact .inl (hfs c hc)

theorem Mantissa.ne_nil (h : Mantissa ms v) : ms ≠ [] := by
  cases h with
  | whole hne _ => exact hne
  | pointed _ _ _ => simp

theorem Whole.chars (h : Whole es e) : ∀ c ∈ es, c.isDigit = true ∨ c = '+' ∨ c = '-' := by
  cases h with
  | plain _ hds => exact fun c hc => .inl (hds c hc)
  | plus _ hds => exact List.forall_mem_cons.mpr ⟨.inr (.inl rfl), fun c hc => .inl (hds c hc)⟩
  | minus _ hds => exact List.forall_mem_cons.mpr ⟨.inr (.inr rfl), fun c hc => .inl (hds c hc)⟩

theorem Power.head (h : Power es e) : ∀ c ∈ es.head?, c = 'e' ∨ c = 'E' := by
  cases h with
  | none => exact fun c hc => by cases hc
  | some hmark _ => exact fun c hc => Option.some.inj hc ▸ hmark

theorem Literal.chars (h : Literal cs v) : ∀ c ∈ cs, c.isDigit = true ∨ c ∈ ['.', 'e', 'E', '+', '-'] := by
  obtain ⟨hm, he⟩ := h
  intro c hc
  rcases List.mem_append.mp hc with hc | hc
  · exact (hm.chars c hc).imp_right fun hpoint => by rw [hpoint]; decide
  · cases he with
    | none => cases hc
    | some hmark hes =>
      rcases List.mem_cons.mp hc with rfl | hc
      · rcases hmark with rfl | rfl <;> exact .inr (by decide)
      · exact (hes.chars c hc).imp_right fun hsign => by rcases hsign with rfl | rfl <;> decide

/-- A literal begins with a digit or the point. -/
theorem Literal.head (h : Literal cs v) : ∃ c rest, cs = c :: rest ∧ (c.isDigit = true ∨ c = '.') := by
  obtain ⟨hm, -⟩ := h
  obtain ⟨c, rest, rfl⟩ := List.exists_cons_of_ne_nil hm.ne_nil
  exact ⟨c, _, rfl, hm.chars c List.mem_cons_self⟩

/-! ## Reading -/

theorem wholeNat?_digits (hne : ds ≠ []) (hds : Digits ds) : wholeNat? ds = some (natOf ds) :=
  if_pos ⟨hne, List.all_eq_true.mpr hds⟩

theorem wholeNat?_eq_some : wholeNat? ds = some n ↔ ds ≠ [] ∧ Digits ds ∧ natOf ds = n := by
  constructor
  · intro h
    unfold wholeNat? at h
    split at h
    next hds => exact ⟨hds.1, List.all_eq_true.mp hds.2, Option.some.inj h⟩
    next => cases h
  · rintro ⟨hne, hds, rfl⟩
    exact wholeNat?_digits hne hds

theorem signedInt?_eq_some : signedInt? es = some e ↔ Whole es e := by
  constructor
  · intro h
    unfold signedInt? at h
    split at h
    all_goals
      obtain ⟨n, hn, rfl⟩ := Option.map_eq_some_iff.mp h
      obtain ⟨hne, hds, rfl⟩ := wholeNat?_eq_some.mp hn
    · exact .plus hne hds
    · exact .minus hne hds
    · exact .plain hne hds
  · rintro (⟨hne, hds⟩ | ⟨hne, hds⟩ | ⟨hne, hds⟩)
    · unfold signedInt?
      split
      next => cases hds '+' List.mem_cons_self
      next => cases hds '-' List.mem_cons_self
      next => rw [wholeNat?_digits hne hds]; rfl
    · simp [signedInt?, wholeNat?_digits hne hds]
    · simp [signedInt?, wholeNat?_digits hne hds]

theorem exponent?_eq_some : exponent? es = some e ↔ Power es e := by
  constructor
  · intro h
    unfold exponent? at h
    split at h
    next => obtain rfl := Option.some.inj h; exact .none
    next c cs =>
      split at h
      next hmark => exact .some hmark (signedInt?_eq_some.mp h)
      next => cases h
  · rintro (_ | ⟨hmark, hes⟩)
    · rfl
    · rw [exponent?, if_pos hmark, signedInt?_eq_some.mpr hes]

theorem spanDigits_append (hds : Digits ds) (htail : ∀ c ∈ tail.head?, c.isDigit = false) :
    spanDigits (ds ++ tail) = (ds, tail) := by
  have hnone : tail.takeWhile Char.isDigit = [] ∧ tail.dropWhile Char.isDigit = tail := by
    cases tail with
    | nil => exact ⟨rfl, rfl⟩
    | cons c tail => simp [htail c rfl]
  rw [spanDigits, List.takeWhile_append_of_pos hds, List.dropWhile_append_of_pos hds, hnone.1, hnone.2, List.append_nil]

theorem digits_takeWhile (cs : List Char) : Digits (cs.takeWhile Char.isDigit) := fun _ hc => List.mem_takeWhile_imp hc

/-- With the point left out there are as many more powers of ten as there are digits behind it. -/
theorem value_pointed (ws fs : List Char) (e : ℤ) :
    value ⟨natOf (ws ++ fs), e - fs.length⟩ = (natOf ws + natOf fs / 10 ^ fs.length) * 10 ^ e := by
  rw [value, natOf_append, zpow_sub₀ (by norm_num), zpow_natCast]
  push_cast
  field_simp

/-- What is behind the digits of a literal is read as its exponent. -/
theorem Mantissa.read (h : Mantissa ms v) (hes : ∀ c ∈ es.head?, c = 'e' ∨ c = 'E') : ∃ ws fs : List Char,
    read? (ms ++ es) = (exponent? es).map (fun e => ⟨natOf (ws ++ fs), e - fs.length⟩) ∧
      v = natOf ws + natOf fs / 10 ^ fs.length := by
  have hmark : ∀ c ∈ es.head?, c.isDigit = false := fun c hc => by rcases hes c hc with rfl | rfl <;> decide
  cases h with
  | whole hne hws =>
    have hnone : spanFraction es = ([], es) := by
      unfold spanFraction
      split
      next => rcases hes '.' rfl with h | h <;> cases h
      next => rfl
    refine ⟨ms, [], ?_, by simp [natOf]⟩
    rw [read?, spanDigits_append hws hmark]
    simp [hnone, hne]
  | @pointed ws fs hne hws hfs =>
    refine ⟨ws, fs, ?_, rfl⟩
    rw [read?, List.append_assoc, spanDigits_append hws fun c hc => ?_]
    · have hsome : ¬ (ws = [] ∧ fs = []) := not_and_or.mpr hne
      simp [spanFraction, spanDigits_append hfs hmark, hsome]
    · obtain rfl : c = '.' := by simpa using hc.symm
      decide

/-- A literal is read as a decimal of the number it denotes. -/
theorem Literal.read (h : Literal cs v) : ∃ d, read? cs = some d ∧ d.value = v := by
  obtain ⟨hm, he⟩ := h
  obtain ⟨ws, fs, hread, rfl⟩ := hm.read he.head
  rw [exponent?_eq_some.mpr he] at hread
  exact ⟨_, hread, value_pointed ws fs _⟩

/-- What is read is a literal. -/
theorem read?_sound (h : read? cs = some d) : Literal cs d.value := by
  obtain ⟨ws, hws⟩ : ∃ ws, cs.takeWhile Char.isDigit = ws := ⟨_, rfl⟩
  obtain ⟨rest, hrest⟩ : ∃ rest, cs.dropWhile Char.isDigit = rest := ⟨_, rfl⟩
  have hdigits : Digits ws := hws ▸ digits_takeWhile cs
  have hcs : cs = ws ++ rest := by rw [← hws, ← hrest, List.takeWhile_append_dropWhile]
  rw [read?, spanDigits, hws, hrest] at h
  by_cases hpoint : ∃ tail, rest = '.' :: tail
  · obtain ⟨tail, rfl⟩ := hpoint
    simp only [spanFraction, spanDigits] at h
    split at h
    next => cases h
    next hne =>
      obtain ⟨e, he, rfl⟩ := Option.map_eq_some_iff.mp h
      have hsplit : cs = (ws ++ '.' :: tail.takeWhile Char.isDigit) ++ tail.dropWhile Char.isDigit := by
        rw [List.append_assoc, List.cons_append, List.takeWhile_append_dropWhile, hcs]
      rw [hsplit, value_pointed]
      exact .intro (.pointed (not_and_or.mp hne) hdigits (digits_takeWhile tail)) (exponent?_eq_some.mp he)
  · have hnone : spanFraction rest = ([], rest) := by
      unfold spanFraction
      split
      next => exact absurd ⟨_, rfl⟩ hpoint
      next => rfl
    simp only [hnone] at h
    split at h
    next => cases h
    next hne =>
      obtain ⟨e, he, rfl⟩ := Option.map_eq_some_iff.mp h
      rw [hcs, value_pointed]
      have hvalue : (natOf ws : ℚ) + natOf [] / 10 ^ ([] : List Char).length = natOf ws := by simp [natOf]
      rw [hvalue]
      exact .intro (.whole (fun hnil => hne ⟨hnil, trivial⟩) hdigits) (exponent?_eq_some.mp he)

end

end Decimal

namespace NumberText

open Decimal

/-! ## Literals in strings -/

/-- A sign or none, and whether it is a minus. -/
inductive Leading : List Char → Bool → Prop
  | none : Leading [] false
  | plus : Leading ['+'] false
  | minus : Leading ['-'] true

section
variable {cs sign : List Char} {d : Decimal} {negative : Bool} {s : String} {v : ℚ}

theorem splitSign_eq (hsign : Leading sign negative) (hcs : ∀ c ∈ cs.head?, c ≠ '+' ∧ c ≠ '-') :
    splitSign (sign ++ cs) = (negative, cs) := by
  cases hsign with
  | plus => rfl
  | minus => rfl
  | none =>
    rw [List.nil_append]
    unfold splitSign
    split
    next => exact absurd rfl (hcs '-' rfl).2
    next => exact absurd rfl (hcs '+' rfl).1
    next => rfl

theorem splitSign_cases (cs : List Char) :
    ∃ sign negative unsigned, cs = sign ++ unsigned ∧ Leading sign negative ∧ splitSign cs = (negative, unsigned) := by
  unfold splitSign
  split
  next rest => exact ⟨['-'], true, rest, rfl, .minus, rfl⟩
  next rest => exact ⟨['+'], false, rest, rfl, .plus, rfl⟩
  next => exact ⟨[], false, cs, rfl, .none, rfl⟩

/-- A string that is a literal, blanks and a sign apart, is read as the literal with that sign. -/
theorem read_literal (htrim : Text.trim s.toList = sign ++ cs) (hsign : Leading sign negative) (h : Literal cs v)
    (hd : read? cs = some d) : NumberText.read s = signed negative d.toFloat := by
  have hchars : ∀ c ∈ cs, c ≠ 'x' ∧ c ≠ 'X' ∧ c ≠ 'I' := by
    intro c hc
    refine ⟨?_, ?_, ?_⟩ <;> rintro rfl <;> exact absurd (h.chars _ hc) (by decide)
  obtain ⟨c, rest, rfl, hc⟩ := h.head
  have hdecimal : decimal (sign ++ c :: rest) = signed negative d.toFloat := by
    have hinfinity : c :: rest ≠ "Infinity".toList := fun heq =>
      (hchars c List.mem_cons_self).2.2 (List.cons.inj heq).1
    rw [decimal, splitSign_eq hsign fun c' hc' => ?_]
    · simp only [if_neg hinfinity, hd]
    · obtain rfl : c = c' := Option.some.inj hc'
      constructor <;> rintro rfl <;> exact absurd hc (by decide)
  rw [NumberText.read, htrim]
  split
  next heq => simp at heq
  next digits heq =>
    exact absurd rfl (hchars 'x' (by cases hsign <;> simp_all)).1
  next digits heq =>
    exact absurd rfl (hchars 'X' (by cases hsign <;> simp_all)).2.1
  next => exact hdecimal

end

end NumberText

end Treewalk
