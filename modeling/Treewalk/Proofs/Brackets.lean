/-
  Treewalk.Proofs.Brackets — brackets that match in kind.

  `Matched` reads tokens from left to right with the brackets that are still open: every closing
  bracket must be of the kind of the innermost open one, and in the end none may be open. Level
  brackets (`Nests`) need not match in kind, but inside matched ones they do (`Matched.part`): as many
  are opened as closed, so each is closed by its own.

  `Bracketed D past regions ts rest`: between what stands in front of them and what stands behind, the
  tokens are put together from tokens that are no brackets, from pairs of brackets of one kind with such
  tokens between them, and from regions: statements and object literals that are skipped there
  (`SkippedAt`). Of a region only the level is known. A block is no region, since a brace begins an object
  literal only where `D` allows it, that is behind a token that an operand follows (`AwaitsOperand`).
  Proved: such tokens are matched exactly if each of the regions is (`Bracketed.matched_iff`).
-/

import Treewalk.Proofs.Cover

namespace Treewalk

open Cursor (facing)

/-- The bracket that closes this one. -/
def Punct.closer? : Punct → Option Punct
  | .lparen => some .rparen
  | .lbracket => some .rbracket
  | .lbrace => some .rbrace
  | _ => none

theorem Punct.closer?_eq_some {p q : Punct} (h : p.closer? = some q) :
    p.isOpener = true ∧ q.isCloser = true := by
  cases p <;> simp only [closer?, reduceCtorEq, Option.some.injEq] at h <;> subst h <;> decide

theorem Punct.isOpener_of_isCloser {p : Punct} (h : p.isCloser = true) : p.isOpener = false := by
  cases p <;> first | rfl | cases h

namespace Grammar

/-! ## Brackets that match -/

/-- Whether the tokens close the brackets `opened`, the innermost first, and those they open
    themselves, each by its own kind. -/
def closes : List Punct → List Token → Bool
  | opened, [] => opened.isEmpty
  | opened, t :: ts =>
    match t.kind with
    | .punct p =>
      if p.isOpener then closes (p :: opened) ts
      else if p.isCloser then
        match opened with
        | [] => false
        | o :: opened => o.closer? == some p && closes opened ts
      else closes opened ts
    | _ => closes opened ts

def Matched (ts : List Token) : Prop := closes [] ts = true

instance (ts : List Token) : Decidable (Matched ts) := inferInstanceAs (Decidable (_ = true))

section
variable {p : Punct} {s : Span} {t : Token} {opened : List Punct} {ts : List Token}

theorem closes_opener (hp : p.isOpener = true) : closes opened (⟨.punct p, s⟩ :: ts) = closes (p :: opened) ts := by
  simp only [closes, hp, if_true]

theorem closes_closer {o : Punct} (hp : p.isCloser = true) :
    closes (o :: opened) (⟨.punct p, s⟩ :: ts) = (o.closer? == some p && closes opened ts) := by
  simp only [closes, Punct.isOpener_of_isCloser hp, hp, if_true, Bool.false_eq_true, if_false]

theorem closes_level (ht : isLevel t.kind = true) : closes opened (t :: ts) = closes opened ts := by
  obtain ⟨k, s⟩ := t
  cases k with
  | punct p =>
    obtain ⟨ho, hc⟩ : p.isOpener = false ∧ p.isCloser = false := by simpa [isLevel] using ht
    simp only [closes, ho, hc, Bool.false_eq_true, if_false]
  | _ => rfl

theorem ne_eof_of_isLevel {k : TokenKind} (h : isLevel k = true) : k ≠ .eof := by
  rintro rfl
  cases h

/-- What a token does to the brackets that are open. -/
theorem level_cases (ht : t.kind ≠ .eof) :
    (∃ p s, t = ⟨.punct p, s⟩ ∧ p.isOpener = true) ∨ (∃ p s, t = ⟨.punct p, s⟩ ∧ p.isCloser = true) ∨
      isLevel t.kind = true := by
  obtain ⟨k, s⟩ := t
  cases k with
  | punct p =>
    cases ho : p.isOpener with
    | true => exact .inl ⟨p, s, rfl, ho⟩
    | false =>
      cases hc : p.isCloser with
      | true => exact .inr (.inl ⟨p, s, rfl, hc⟩)
      | false => exact .inr (.inr (by simp [isLevel, ho, hc]))
  | eof => exact absurd rfl ht
  | _ => exact .inr (.inr rfl)

end

/-! ## Level brackets, one token after another -/

section
variable {p : Punct} {s : Span} {t : Token} {k n : Nat} {ts us : List Token}

theorem nests_opener (hp : p.isOpener = true) : Nests k (⟨.punct p, s⟩ :: ts) ↔ Nests (k + 1) ts := by
  refine ⟨fun h => ?_, .opener hp⟩
  cases h with
  | opener _ h => exact h
  | closer hc _ =>
    rw [Punct.isOpener_of_isCloser hc] at hp
    cases hp
  | other ht _ => simp [isLevel, hp] at ht

theorem nests_closer (hp : p.isCloser = true) :
    Nests k (⟨.punct p, s⟩ :: ts) ↔ ∃ l, k = l + 1 ∧ Nests l ts := by
  constructor
  · intro h
    cases h with
    | opener ho _ =>
      rw [Punct.isOpener_of_isCloser hp] at ho
      cases ho
    | closer _ h => exact ⟨_, rfl, h⟩
    | other ht _ => simp [isLevel, hp] at ht
  · rintro ⟨l, rfl, h⟩
    exact .closer hp h

theorem nests_level (ht : isLevel t.kind = true) : Nests k (t :: ts) ↔ Nests k ts := by
  refine ⟨fun h => ?_, .other ht⟩
  cases h with
  | opener ho _ => simp [isLevel, ho] at ht
  | closer hc _ => simp [isLevel, hc] at ht
  | other _ h => exact h

/-- How many brackets tokens close says how many the tokens behind them close. -/
theorem Nests.split (h : Nests n ts) (hall : Nests k (ts ++ us)) : ∃ l, k = n + l ∧ Nests l us := by
  induction h generalizing k with
  | nil => exact ⟨k, by omega, hall⟩
  | opener hp _ ih =>
    obtain ⟨l, hl, hus⟩ := ih ((nests_opener hp).mp hall)
    exact ⟨l, by omega, hus⟩
  | closer hp _ ih =>
    obtain ⟨m, rfl, hm⟩ := (nests_closer hp).mp hall
    obtain ⟨l, hl, hus⟩ := ih hm
    exact ⟨l, by omega, hus⟩
  | other ht _ ih => exact ih ((nests_level ht).mp hall)

theorem Nests.tail (h : Nests k (t :: ts)) : ∃ l, Nests l ts := by
  cases h with
  | opener _ h | closer _ h | other _ h => exact ⟨_, h⟩

/-- Matched brackets are level. -/
theorem nests_of_closes {opened : List Punct} (h : closes opened ts = true) (heof : ∀ t ∈ ts, t.kind ≠ .eof) :
    Nests opened.length ts := by
  induction ts generalizing opened with
  | nil =>
    rw [List.isEmpty_iff.mp h]
    exact .nil
  | cons t ts ih =>
    obtain ⟨ht, hts⟩ := List.forall_mem_cons.mp heof
    obtain ⟨p, s, rfl, hp⟩ | ⟨p, s, rfl, hp⟩ | hl := level_cases ht
    · rw [closes_opener hp] at h
      exact .opener hp (ih h hts)
    · cases opened with
      | nil => simp [closes, hp, Punct.isOpener_of_isCloser hp] at h
      | cons o opened =>
        rw [closes_closer hp, Bool.and_eq_true] at h
        exact .closer hp (ih h.2 hts)
    · rw [closes_level hl] at h
      exact .other hl (ih h hts)

end

/-! ## Parts of matched tokens -/

section
variable {n : Nat} {front opened : List Punct} {ts us : List Token}

theorem closes_append (h : closes front ts = true) (heof : ∀ t ∈ ts, t.kind ≠ .eof) :
    closes (front ++ opened) (ts ++ us) = closes opened us := by
  induction ts generalizing front with
  | nil =>
    rw [List.isEmpty_iff.mp h]
    rfl
  | cons t ts ih =>
    obtain ⟨ht, hts⟩ := List.forall_mem_cons.mp heof
    rw [List.cons_append]
    obtain ⟨p, s, rfl, hp⟩ | ⟨p, s, rfl, hp⟩ | hl := level_cases ht
    · rw [closes_opener hp] at h ⊢
      exact ih h hts
    · cases front with
      | nil => simp [closes, hp, Punct.isOpener_of_isCloser hp] at h
      | cons o front =>
        rw [closes_closer hp, Bool.and_eq_true] at h
        rw [List.cons_append, closes_closer hp, h.1, Bool.true_and]
        exact ih h.2 hts
    · rw [closes_level hl] at h ⊢
      exact ih h hts

/-- The part that closes just the brackets of `front` closes them by their own kinds. -/
theorem closes_part (hts : Nests n ts) (hn : front.length = n) (h : closes (front ++ opened) (ts ++ us) = true) :
    closes front ts = true := by
  induction hts generalizing front with
  | nil =>
    rw [List.eq_nil_of_length_eq_zero hn]
    rfl
  | @opener p s n ts hp _ ih =>
    rw [List.cons_append, closes_opener hp] at h
    rw [closes_opener hp]
    refine ih ?_ h
    rw [List.length_cons, hn]
  | @closer p s n ts hp _ ih =>
    obtain ⟨o, front, rfl⟩ := List.exists_cons_of_length_eq_add_one hn
    rw [List.cons_append, List.cons_append, closes_closer hp, Bool.and_eq_true] at h
    rw [closes_closer hp, h.1, Bool.true_and]
    exact ih (Nat.succ.inj hn) h.2
  | other ht _ ih =>
    rw [List.cons_append, closes_level ht] at h
    rw [closes_level ht]
    exact ih hn h

/-- Behind a beginning of matched tokens, some of its brackets are open. -/
theorem closes_suffix (h : closes opened (ts ++ us) = true) (heof : ∀ t ∈ ts, t.kind ≠ .eof) :
    ∃ left, closes left us = true := by
  induction ts generalizing opened with
  | nil => exact ⟨opened, h⟩
  | cons t ts ih =>
    obtain ⟨ht, hts⟩ := List.forall_mem_cons.mp heof
    rw [List.cons_append] at h
    obtain ⟨p, s, rfl, hp⟩ | ⟨p, s, rfl, hp⟩ | hl := level_cases ht
    · rw [closes_opener hp] at h
      exact ih h hts
    · cases opened with
      | nil => simp [closes, hp, Punct.isOpener_of_isCloser hp] at h
      | cons o opened =>
        rw [closes_closer hp, Bool.and_eq_true] at h
        exact ih h.2 hts
    · rw [closes_level hl] at h
      exact ih h hts

/-- A level part of matched tokens is matched itself. -/
theorem Matched.part (pre : List Token) (h : Matched (pre ++ (ts ++ us))) (hpre : ∀ t ∈ pre, t.kind ≠ .eof)
    (hts : Nests 0 ts) : Matched ts := by
  obtain ⟨left, hleft⟩ := closes_suffix h hpre
  exact closes_part hts rfl (List.nil_append left ▸ hleft)

theorem matched_append (hts : Nests 0 ts) : Matched (ts ++ us) ↔ Matched ts ∧ Matched us := by
  constructor
  · intro h
    have hts' : Matched ts := Matched.part [] h nofun hts
    exact ⟨hts', (closes_append hts' hts.ne_eof).symm.trans h⟩
  · rintro ⟨hts', hus⟩
    exact (closes_append hts' hts.ne_eof).trans hus

/-- Brackets of one kind around matched tokens. -/
theorem matched_pair {p q : Punct} {s s' : Span} (hpq : p.closer? = some q) (hts : Nests 0 ts) :
    Matched (⟨.punct p, s⟩ :: (ts ++ [⟨.punct q, s'⟩])) ↔ Matched ts := by
  obtain ⟨hp, hq⟩ := Punct.closer?_eq_some hpq
  constructor
  · exact fun h => Matched.part [⟨.punct p, s⟩] h (by simp) hts
  · intro h
    have hclose : closes [p] [⟨.punct q, s'⟩] = true := by
      rw [closes_closer hq, hpq]
      simp [closes]
    unfold Matched
    rw [closes_opener hp]
    exact (closes_append h hts.ne_eof).trans hclose

end

/-! ## Tokens in brackets -/

/-- Whether an operand follows the token. -/
def leavesOperand : TokenKind → Bool
  | .punct p => !(p.isCloser || p matches .lbrace | .semicolon | .dot)
  | .keyword .returnKw | .keyword .newKw | .keyword .typeofKw => true
  | _ => false

/-- An operand follows the last of the tokens, which are in reverse. A brace there begins an object literal;
    elsewhere it begins a block. -/
def AwaitsOperand (past : List Token) : Prop := ∃ t ∈ past.head?, leavesOperand t.kind = true

/-- The token can stand alone: it is no bracket, no word of a statement that is skipped, and no point, which
    stands in front of a name. -/
def isPlain : TokenKind → Bool
  | .punct p => !p.isOpener && !p.isCloser && p != .dot
  | .keyword k => (skippedKind? k).isNone
  | .eof => false
  | _ => true

theorem isLevel_of_isPlain {k : TokenKind} (h : isPlain k = true) : isLevel k = true := by
  cases k with
  | punct p =>
    simp only [isPlain, Bool.and_eq_true] at h
    simp only [isLevel, h.1, Bool.and_self]
  | eof => cases h
  | _ => rfl

/-- The tokens are skipped as a whole: behind `past` and in front of `rest` they are a statement of a kind that
    is skipped, or an object literal, which stands where `D` allows one. -/
inductive SkippedAt (D : List Token → Prop) (past region rest : List Token) : Prop
  | statement {word : Keyword} {s : Span} {ts : List Token} {kind : String} {n : Nat} {node : Node} :
      region = ⟨.keyword word, s⟩ :: ts → skippedKind? word = some kind →
      skipStatement kind n (facing past (region ++ rest)) = .ok (node, facing (region.reverse ++ past) rest) →
      SkippedAt D past region rest
  | object {s : Span} {ts : List Token} {n : Nat} {node : Node} : region = ⟨.punct .lbrace, s⟩ :: ts → D past →
      skipObject n (facing past (region ++ rest)) = .ok (node, facing (region.reverse ++ past) rest) →
      SkippedAt D past region rest

inductive Bracketed (D : List Token → Prop) : List Token → List (List Token) → List Token → List Token → Prop
  | nil {past rest : List Token} : Bracketed D past [] [] rest
  | token {past rest : List Token} {t : Token} : isPlain t.kind = true → Bracketed D past [] [t] rest
  | property {past rest : List Token} {k : TokenKind} {name : String} {s s' : Span} : NamesProperty k name →
      Bracketed D past [] [⟨.punct .dot, s⟩, ⟨k, s'⟩] rest
  | pair {past rest ts : List Token} {p q : Punct} {s s' : Span} {regions : List (List Token)} : p.closer? = some q →
      Bracketed D (⟨.punct p, s⟩ :: past) regions ts (⟨.punct q, s'⟩ :: rest) →
      Bracketed D past regions (⟨.punct p, s⟩ :: (ts ++ [⟨.punct q, s'⟩])) rest
  | region {past rest region : List Token} : SkippedAt D past region rest → Nests 0 region →
      Bracketed D past [region] region rest
  | append {past rest ts us : List Token} {regions regions' : List (List Token)} :
      Bracketed D past regions ts (us ++ rest) → Bracketed D (ts.reverse ++ past) regions' us rest →
      Bracketed D past (regions ++ regions') (ts ++ us) rest

namespace Bracketed

variable {D : List Token → Prop} {past rest ts : List Token} {regions : List (List Token)}

theorem nests (h : Bracketed D past regions ts rest) : Nests 0 ts := by
  induction h with
  | nil => exact .nil
  | token ht => exact nests_token (isLevel_of_isPlain ht)
  | property hname => exact (nests_token rfl).append hname.nests
  | pair hpq _ ih =>
    obtain ⟨hp, hq⟩ := Punct.closer?_eq_some hpq
    exact ih.bracketed hp hq
  | region _ h => exact h
  | append _ _ ih ih' => exact ih.append ih'

theorem matched_iff (h : Bracketed D past regions ts rest) : Matched ts ↔ ∀ r ∈ regions, Matched r := by
  induction h with
  | nil => exact iff_of_true rfl nofun
  | token ht => exact iff_of_true (closes_level (isLevel_of_isPlain ht)) nofun
  | property hname => exact iff_of_true (by cases hname <;> rfl) nofun
  | pair hpq h ih => rw [matched_pair hpq h.nests, ih]
  | region _ _ => simp
  | append h _ ih ih' => rw [matched_append h.nests, ih, ih', List.forall_mem_append]

end Bracketed

end Grammar

end Treewalk
