/-
  Treewalk.Proofs.OutlineTexts — the numbers and strings of an outline.

  An outline writes a number without an exponent, and a string between double quotes, characters that have
  no visible form as escapes.

  Proved: both are read back, a string because it is written as the text of a literal that stands for it
  (`escaped_spec`), a number because it is written as a numeral, or a word if it is not finite
  (`readOutline_write`). So no two strings and no two numbers are written alike. Neither takes more than a line.
-/

import Treewalk.Proofs.NumberKinds
import Treewalk.Proofs.Unquoting
import Treewalk.Text.Escaped

namespace Treewalk

open Lexer (StandsFor StringBody)

/-! ## Strings -/

/-- Characters that a body may hold as they are. -/
theorem Lexer.StringBody.prepend {q : Char} {ds body : List Char}
    (hds : ∀ d ∈ ds, d ≠ q ∧ d ≠ '\\' ∧ d ≠ '\n' ∧ d ≠ '\r') (h : StringBody q body) : StringBody q (ds ++ body) := by
  induction ds with
  | nil => exact h
  | cons d ds ih =>
    obtain ⟨⟨hq, hslash, hn, hr⟩, hds⟩ := List.forall_mem_cons.mp hds
    exact .plain hq hslash hn hr (ih hds)

/-- A body keeps to its line. -/
theorem Lexer.StringBody.newline_not_mem {q : Char} {body : List Char} (h : StringBody q body) : '\n' ∉ body := by
  induction h with
  | nil => simp
  | plain _ _ hn _ _ ih => simp [Ne.symm hn, ih]
  | pair hn _ _ ih => simp [Ne.symm hn, ih]

namespace Text

theorem hex_hexDigits (n : Nat) : Escape.Hex (hexDigits n) n := by
  induction n using Nat.strong_induction_on with
  | _ n ih =>
    rw [hexDigits, Nat.toDigits_eq_if (by decide)]
    split
    · rename_i hn
      simpa using Escape.Hex.snoc .nil hn (.inl rfl)
    · have hrest := Escape.Hex.snoc (ih (n / 16) (by omega)) (Nat.mod_lt n (by decide)) (.inl rfl)
      rwa [Nat.div_add_mod] at hrest

/-- A character by its number, in braces. -/
theorem standsFor_number (c : Char) : StandsFor '"' ('\\' :: 'u' :: '\x7b' :: (hexDigits c.toNat ++ ['\x7d'])) c where
  append h := by
    have hdigits : ∀ d ∈ hexDigits c.toNat, d ≠ '"' ∧ d ≠ '\\' ∧ d ≠ '\n' ∧ d ≠ '\r' := by
      intro d hd
      have hdigit := (hex_hexDigits c.toNat).isHexDigit d hd
      refine ⟨?_, ?_, ?_, ?_⟩ <;> rintro rfl <;> cases hdigit
    have hrest : StringBody '"' ('\x7b' :: (hexDigits c.toNat ++ ['\x7d']) ++ _) :=
      .prepend (by simpa [or_imp, forall_and] using hdigits) h
    exact .pair (by decide) (by decide) hrest
  denotes := by
    have hlength : (hexDigits c.toNat).length ≤ 6 := by
      have hrange : c.toNat < 0x110000 := by
        have hvalid : c.toNat.isValidChar := c.valid
        unfold Nat.isValidChar at hvalid
        omega
      exact (Nat.length_toDigits_le_iff (by decide) (by decide)).mpr (by omega)
    have hbraced : Escape.Denotes true ('\\' :: 'u' :: '\x7b' :: ([] ++ hexDigits c.toNat ++ ['\x7d'])) c :=
      .braced (.inl rfl) Nat.toDigits_ne_nil (by rwa [List.length_nil, Nat.zero_add]) (hex_hexDigits c.toNat)
    exact hbraced

theorem standsFor_escapeChar (c : Char) : StandsFor '"' (escapeChar c) c := by
  unfold escapeChar
  split
  · exact .control (by decide)
  · exact .control (by decide)
  · exact .control (by decide)
  · exact .itself (.inr (.inl rfl))
  · exact .itself (.inl rfl)
  · exact .control (by decide)
  · rename_i ht hr hn hquote hslash hzero
    split
    · exact standsFor_number c
    · exact .plain hquote hslash hn hr

/-- Between its quotes an escaped string is the body of a literal, and read back. -/
theorem escaped_spec (s : String) : ∃ body, (escaped s).toList = '"' :: (body ++ ['"']) ∧ StringBody '"' body ∧
    Escape.decode body = .ok s.toList := by
  obtain ⟨hbody, hreads⟩ := StandsFor.flatMap standsFor_escapeChar s.toList
  exact ⟨_, by rw [escaped, String.toList_ofList]; rfl, hbody, hreads.decodeFrom_eq 0⟩

theorem escaped_inj {s t : String} (h : escaped s = escaped t) : s = t := by
  obtain ⟨body, hs, -, hread⟩ := escaped_spec s
  obtain ⟨body', ht, -, hread'⟩ := escaped_spec t
  obtain rfl : body = body' := by
    rw [h, ht] at hs
    simpa using hs.symm
  rw [hread] at hread'
  exact String.toList_inj.mp (Except.ok.inj hread')

theorem newline_not_mem_escaped (s : String) : '\n' ∉ (escaped s).toList := by
  obtain ⟨body, hs, hbody, -⟩ := escaped_spec s
  rw [hs]
  simpa using hbody.newline_not_mem

end Text

/-! ## Numbers -/

namespace Decimal

section
variable {x : Float}

/-- The number that an outline writes with a text. -/
def readOutline (text : String) : Float :=
  if text = "inf" then NumberText.infinity
  else if text = "-inf" then -NumberText.infinity
  else NumberText.read text

/-- A size is written with digits and a point. -/
theorem outline_numeral {s : Float.Model.UnpackedFloat.Sign} {n : Nat} (h : Sized s n x) :
    NumberText.read (Style.outline.write x) = x ∧
      ∀ c ∈ (Style.outline.write x).toList, c.isDigit = true ∨ c = '.' ∨ c = '-' := by
  have hplain : Plain (Style.outline.layout (ofFloat x)) (ofFloat x).value := Style.plain_layout rfl (ofFloat x)
  rw [Style.outline.write_sized h]
  refine ⟨NumberText.read_sized h (.inl hplain), fun c hc => ?_⟩
  rw [String.toList_ofList, List.mem_append] at hc
  rcases hc with hc | hc
  · split at hc
    · exact .inr (.inr (List.mem_singleton.mp hc))
    · cases hc
  · exact (hplain.mantissa.chars c hc).imp_right .inl

/-- What an outline writes for a number is read as it. -/
theorem readOutline_write (x : Float) : readOutline (Style.outline.write x) = x := by
  cases kind x with
  | nan => rfl
  | infinite negative => cases negative <;> rfl
  | zero negative => cases negative <;> rfl
  | sized h =>
    obtain ⟨hread, hchars⟩ := outline_numeral h
    have hword (text : String) (hi : 'i' ∈ text.toList) : Style.outline.write x ≠ text := by
      rintro rfl
      rcases hchars _ hi with h | h | h <;> cases h
    rw [readOutline, if_neg (hword "inf" (by decide)), if_neg (hword "-inf" (by decide)), hread]

theorem newline_not_mem_outline (x : Float) : '\n' ∉ (Style.outline.write x).toList := by
  cases kind x with
  | nan => decide
  | infinite negative => cases negative <;> decide
  | zero negative => cases negative <;> decide
  | sized h =>
    intro hc
    rcases (outline_numeral h).2 _ hc with h | h | h <;> cases h

end

end Decimal

end Treewalk
