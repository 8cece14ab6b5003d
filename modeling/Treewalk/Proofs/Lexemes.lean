/-
  Treewalk.Proofs.Lexemes — which texts are lexemes, rule by rule.

  `Spells s l`: by the rule for the shape `s`, the text `l` as a whole is a lexeme. The rules overlap:
  a text may begin with lexemes of several rules, and of several lengths. `Longest s n text` says which
  of them counts, and that no other rule spells a lexeme as long.

  Proved: what a lexeme looks like that begins with a given character (`Spells.of_gap`,
  `Spells.of_word`, `Spells.of_digit`, `Spells.of_quote`, `Spells.of_slash`, `Spells.of_dot`,
  `Spells.of_other`), and that only one lexeme of a text is the longest (`Longest.unique`).
-/

import Treewalk.Token.Lexer

namespace Treewalk

namespace Lexer

open Escape (isHexDigit)

/-! ## The rules -/

def Digits (cs : List Char) : Prop := ∀ c ∈ cs, c.isDigit = true

/-- The part of a number behind its whole digits. -/
inductive Fraction : List Char → Prop
  | none : Fraction []
  | digits {ds : List Char} : Digits ds → Fraction ('.' :: ds)

/-- An exponent mark, with a sign or without. -/
inductive Mark : List Char → Prop
  | plain {c : Char} : c = 'e' ∨ c = 'E' → Mark [c]
  | signed {c s : Char} : c = 'e' ∨ c = 'E' → s = '+' ∨ s = '-' → Mark [c, s]

inductive Exponent : List Char → Prop
  | none : Exponent []
  | some {m ds : List Char} : Mark m → ds ≠ [] → Digits ds → Exponent (m ++ ds)

/-- What may stand between quotes on one line: characters other than the quote, and pairs of a
    backslash and any character. -/
inductive StringBody (quote : Char) : List Char → Prop
  | nil : StringBody quote []
  | plain {c : Char} {cs : List Char} : c ≠ quote → c ≠ '\\' → c ≠ '\n' → c ≠ '\r' →
      StringBody quote cs → StringBody quote (c :: cs)
  | pair {c : Char} {cs : List Char} : c ≠ '\n' → c ≠ '\r' → StringBody quote cs → StringBody quote ('\\' :: c :: cs)

inductive Spells : Shape → List Char → Prop
  | gap {c : Char} {cs : List Char} : isGap c = true → (∀ d ∈ cs, isGap d = true) → Spells .gap (c :: cs)
  | lineComment {cs : List Char} : '\n' ∉ cs → Spells .lineComment ('/' :: '/' :: cs)
  /-- The comment ends at the first star and slash behind its opening. -/
  | blockComment {cs : List Char} : ¬ ['*', '/'] <:+: cs ++ ['*'] → Spells .blockComment ('/' :: '*' :: (cs ++ ['*', '/']))
  | openComment {cs : List Char} : ¬ ['*', '/'] <:+: cs → Spells .openComment ('/' :: '*' :: cs)
  | word {c : Char} {cs : List Char} : isWordStart c = true → (∀ d ∈ cs, isWordPart d = true) → Spells .word (c :: cs)
  | hexNumber {x : Char} {ds : List Char} : x = 'x' ∨ x = 'X' → ds ≠ [] → (∀ d ∈ ds, isHexDigit d = true) →
      Spells .hexNumber ('0' :: x :: ds)
  | number {d : Char} {ds f e : List Char} : d.isDigit = true → Digits ds → Fraction f → Exponent e →
      Spells .number (d :: (ds ++ (f ++ e)))
  | pointNumber {d : Char} {ds e : List Char} : d.isDigit = true → Digits ds → Exponent e →
      Spells .number ('.' :: d :: (ds ++ e))
  /-- An exponent mark without digits. -/
  | malformedNumber {d : Char} {ds f m : List Char} : d.isDigit = true → Digits ds → Fraction f → Mark m →
      Spells .malformedNumber (d :: (ds ++ (f ++ m)))
  | malformedHex {x : Char} : x = 'x' ∨ x = 'X' → Spells .malformedNumber ['0', x]
  | string {q : Char} {cs : List Char} : q = '"' ∨ q = '\'' → StringBody q cs → Spells .string (q :: (cs ++ [q]))
  /-- A string whose line or text ends, or ends behind a backslash. -/
  | openString {q : Char} {cs tail : List Char} : q = '"' ∨ q = '\'' → StringBody q cs → tail = [] ∨ tail = ['\\'] →
      Spells .openString (q :: (cs ++ tail))
  | punct {p : Punct} {cs : List Char} : cs = p.text.toList → Spells (.punct p) cs

/-- The lexeme of the first `n` characters of a text is longer than any other at its front. -/
structure Longest (s : Shape) (n : Nat) (text : List Char) : Prop where
  le : n ≤ text.length
  spells : Spells s (text.take n)
  longest : ∀ s' l, Spells s' l → l <+: text → l.length < n ∨ l.length = n ∧ s' = s

/-! ## How lexemes begin -/

theorem isGap_iff {c : Char} : isGap c = true ↔ c = ' ' ∨ c = '\t' ∨ c = '\r' ∨ c = '\n' ∨ c = '\x0c' := by
  simp [isGap, or_assoc]

theorem isAlpha_iff {c : Char} : c.isAlpha = true ↔
    'A'.toNat ≤ c.toNat ∧ c.toNat ≤ 'Z'.toNat ∨ 'a'.toNat ≤ c.toNat ∧ c.toNat ≤ 'z'.toNat := by
  have halpha : c.isAlpha = (decide ('A'.val ≤ c.val ∧ c.val ≤ 'Z'.val) ||
    (decide ('a'.val ≤ c.val) && decide (c.val ≤ 'z'.val))) := rfl
  simp only [halpha, Bool.or_eq_true, Bool.and_eq_true, decide_eq_true_eq, UInt32.le_iff_toNat_le]
  rfl

theorem not_isDigit_of_isWordStart {c : Char} (h : isWordStart c = true) : c.isDigit = false := by
  cases hd : c.isDigit with
  | false => rfl
  | true =>
    simp only [isWordStart, Bool.or_eq_true, decide_eq_true_eq] at h
    rcases h with (h | rfl) | rfl
    · have halpha := isAlpha_iff.mp h
      have hdigit := Char.isDigit_iff_toNat.mp hd
      simp only [Char.reduceToNat] at halpha hdigit
      omega
    · cases hd
    · cases hd

end Lexer

namespace Punct

open Lexer

theorem text_ne_nil (p : Punct) : p.text.toList ≠ [] := by cases p <;> decide

/-- No punctuation begins like a lexeme of another kind, save for slash and point. -/
theorem head_spec {p : Punct} {c : Char} {cs : List Char} (h : c :: cs = p.text.toList) :
    isGap c = false ∧ isWordStart c = false ∧ c.isDigit = false ∧ c ≠ '"' ∧ c ≠ '\'' ∧
      (c = '/' → p = .slash ∧ cs = []) ∧ (c = '.' → p = .dot ∧ cs = []) := by
  have hc : c = p.text.toList.head p.text_ne_nil := by simp [← h]
  have hcs : cs = p.text.toList.tail := by rw [← h, List.tail_cons]
  subst hc hcs
  clear h
  cases p <;> decide

end Punct

namespace Lexer

open Escape (isHexDigit)

namespace Spells

variable {s : Shape} {c : Char} {cs : List Char}

theorem ne_nil {l : List Char} (h : Spells s l) : l ≠ [] := by
  cases h with
  | punct h => exact h ▸ Punct.text_ne_nil _
  | _ => exact List.cons_ne_nil _ _

theorem of_gap (hc : isGap c = true) (h : Spells s (c :: cs)) : s = .gap ∧ ∀ d ∈ cs, isGap d = true := by
  have hc' := isGap_iff.mp hc
  cases h with
  | gap _ hcs => exact ⟨rfl, hcs⟩
  | word hw _ => rcases hc' with rfl | rfl | rfl | rfl | rfl <;> cases hw
  | number hd _ _ _ | malformedNumber hd _ _ _ => rcases hc' with rfl | rfl | rfl | rfl | rfl <;> cases hd
  | string hq _ | openString hq _ _ => rcases hq with rfl | rfl <;> cases hc
  | punct h =>
    have hp := (Punct.head_spec h).1
    rw [hc] at hp
    cases hp
  | _ => cases hc

theorem of_word (hc : isWordStart c = true) (h : Spells s (c :: cs)) : s = .word ∧ ∀ d ∈ cs, isWordPart d = true := by
  have hd' := not_isDigit_of_isWordStart hc
  cases h with
  | gap hg _ => rcases isGap_iff.mp hg with rfl | rfl | rfl | rfl | rfl <;> cases hc
  | word _ hcs => exact ⟨rfl, hcs⟩
  | number hd _ _ _ | malformedNumber hd _ _ _ =>
    rw [hd] at hd'
    cases hd'
  | string hq _ | openString hq _ _ => rcases hq with rfl | rfl <;> cases hc
  | punct h =>
    have hp := (Punct.head_spec h).2.1
    rw [hc] at hp
    cases hp
  | _ => cases hc

/-- A lexeme that begins with a digit. -/
theorem of_digit (hc : c.isDigit = true) (h : Spells s (c :: cs)) :
    (s = .number ∧ ∃ ds f e, cs = ds ++ (f ++ e) ∧ Digits ds ∧ Fraction f ∧ Exponent e) ∨
    (s = .malformedNumber ∧ ∃ ds f m, cs = ds ++ (f ++ m) ∧ Digits ds ∧ Fraction f ∧ Mark m) ∨
    (c = '0' ∧ ∃ x ds, cs = x :: ds ∧ (x = 'x' ∨ x = 'X') ∧ (∀ d ∈ ds, isHexDigit d = true) ∧
      s = if ds = [] then .malformedNumber else .hexNumber) := by
  cases h with
  | gap hg _ => rcases isGap_iff.mp hg with rfl | rfl | rfl | rfl | rfl <;> cases hc
  | word hw _ =>
    rw [not_isDigit_of_isWordStart hw] at hc
    cases hc
  | number _ hds hf he => exact .inl ⟨rfl, _, _, _, rfl, hds, hf, he⟩
  | malformedNumber _ hds hf hm => exact .inr (.inl ⟨rfl, _, _, _, rfl, hds, hf, hm⟩)
  | malformedHex hx => exact .inr (.inr ⟨rfl, _, [], rfl, hx, by simp, rfl⟩)
  | hexNumber hx hne hds => exact .inr (.inr ⟨rfl, _, _, rfl, hx, hds, by rw [if_neg hne]⟩)
  | string hq _ | openString hq _ _ => rcases hq with rfl | rfl <;> cases hc
  | punct h =>
    rw [(Punct.head_spec h).2.2.1] at hc
    cases hc
  | _ => cases hc

theorem of_quote (hc : c = '"' ∨ c = '\'') (h : Spells s (c :: cs)) :
    (s = .string ∧ ∃ body, cs = body ++ [c] ∧ StringBody c body) ∨
    s = .openString ∧ ∃ body tail, cs = body ++ tail ∧ StringBody c body ∧ (tail = [] ∨ tail = ['\\']) := by
  cases h with
  | gap hg _ => rcases hc with rfl | rfl <;> cases hg
  | word hw _ => rcases hc with rfl | rfl <;> cases hw
  | number hd _ _ _ | malformedNumber hd _ _ _ => rcases hc with rfl | rfl <;> cases hd
  | string _ hb => exact .inl ⟨rfl, _, rfl, hb⟩
  | openString _ hb htail => exact .inr ⟨rfl, _, _, rfl, hb, htail⟩
  | punct h =>
    obtain ⟨-, -, -, hd, hs, -⟩ := Punct.head_spec h
    exact absurd hc (not_or.mpr ⟨hd, hs⟩)
  | _ => simp at hc

theorem of_slash (h : Spells s ('/' :: cs)) :
    (s = .punct .slash ∧ cs = []) ∨ (s = .lineComment ∧ ∃ body, cs = '/' :: body ∧ '\n' ∉ body) ∨
    (s = .blockComment ∧ ∃ body, cs = '*' :: (body ++ ['*', '/']) ∧ ¬ ['*', '/'] <:+: body ++ ['*']) ∨
    s = .openComment ∧ ∃ body, cs = '*' :: body ∧ ¬ ['*', '/'] <:+: body := by
  cases h with
  | lineComment h => exact .inr (.inl ⟨rfl, _, rfl, h⟩)
  | blockComment h => exact .inr (.inr (.inl ⟨rfl, _, rfl, h⟩))
  | openComment h => exact .inr (.inr (.inr ⟨rfl, _, rfl, h⟩))
  | string hq _ | openString hq _ _ => simp at hq
  | punct h =>
    obtain ⟨rfl, rfl⟩ := (Punct.head_spec h).2.2.2.2.2.1 rfl
    exact .inl ⟨rfl, rfl⟩
  | gap h _ | word h _ | number h _ _ _ | malformedNumber h _ _ _ => cases h

theorem of_dot (h : Spells s ('.' :: cs)) :
    (s = .punct .dot ∧ cs = []) ∨
    s = .number ∧ ∃ d ds e, cs = d :: (ds ++ e) ∧ d.isDigit = true ∧ Digits ds ∧ Exponent e := by
  cases h with
  | pointNumber hd hds he => exact .inr ⟨rfl, _, _, _, rfl, hd, hds, he⟩
  | string hq _ | openString hq _ _ => simp at hq
  | punct h =>
    obtain ⟨rfl, rfl⟩ := (Punct.head_spec h).2.2.2.2.2.2 rfl
    exact .inl ⟨rfl, rfl⟩
  | gap h _ | word h _ | number h _ _ _ | malformedNumber h _ _ _ => cases h

/-- Any other character begins punctuation or nothing. -/
theorem of_other (hg : isGap c = false) (hw : isWordStart c = false) (hd : c.isDigit = false)
    (hq : ¬ (c = '"' ∨ c = '\'')) (hs : c ≠ '/') (hp : c ≠ '.') (h : Spells s (c :: cs)) :
    ∃ p : Punct, s = .punct p ∧ c :: cs = p.text.toList := by
  cases h with
  | punct h => exact ⟨_, rfl, h⟩
  | gap h _ => rw [hg] at h; cases h
  | word h _ => rw [hw] at h; cases h
  | number h _ _ _ | malformedNumber h _ _ _ => rw [hd] at h; cases h
  | string h _ | openString h _ _ => exact absurd h hq
  | hexNumber _ _ _ | malformedHex _ => cases hd
  | pointNumber _ _ _ => exact absurd rfl hp
  | _ => exact absurd rfl hs

end Spells

/-! ## The longest lexeme -/

namespace Longest

variable {s s' : Shape} {n n' : Nat} {text l : List Char}

theorem unique (h : Longest s n text) (h' : Longest s' n' text) : s = s' ∧ n = n' := by
  have h₁ := h.longest s' _ h'.spells (text.take_prefix n')
  have h₂ := h'.longest s _ h.spells (text.take_prefix n)
  rw [List.length_take_of_le h'.le] at h₁
  rw [List.length_take_of_le h.le] at h₂
  rcases h₁ with hlt | ⟨rfl, rfl⟩
  · omega
  · exact ⟨rfl, rfl⟩

end Longest

end Lexer

end Treewalk
