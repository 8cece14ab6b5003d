/-
  Treewalk.Proofs.Ahead — the tokens ahead of a cursor.

  Parsing goes by the kinds of the tokens ahead (`Cursor.kinds`): they say what is current, and a step
  takes the first away. Where the tokens themselves matter, a cursor at the start of a list behind
  others is `facing` it. The lists that are parsed end in their only `eof` (`EndsOnce`).
-/

import Mathlib.Data.List.Basic
import Treewalk.Token.Cursor

namespace Treewalk

theorem TokenKind.eq_punct_of_tag {k : TokenKind} {p : Punct} (h : k.tag = .punct p) : k = .punct p := by
  cases k <;> simp_all [TokenKind.tag]

theorem TokenKind.tag_eq_eof {k : TokenKind} : k.tag = .eof ↔ k = .eof := by
  cases k <;> simp [TokenKind.tag]

namespace Cursor

/-- The kinds of the tokens ahead. -/
def kinds (c : Cursor) : List TokenKind := c.rest.map (·.kind)

section
variable {c : Cursor} {k : TokenKind} {ks : List TokenKind}

theorem kind_of_kinds (h : c.kinds = k :: ks) : c.kind = k := by
  obtain ⟨t, r, hr, rfl, -⟩ := List.map_eq_cons_iff.mp h
  simp [kind, current, hr]

theorem tag_of_kinds (h : c.kinds = k :: ks) : c.tag = k.tag := by
  rw [← kind_of_kinds h]
  rfl

theorem atEnd_of_kinds (h : c.kinds = k :: ks) : c.atEnd = (k.tag == .eof) := by
  rw [atEnd, tag_of_kinds h]

theorem check_of_kinds (h : c.kinds = k :: ks) (t : Tag) : c.check t = (k.tag == t) := by
  rw [check, tag_of_kinds h]

theorem kinds_advance (h : c.kinds = k :: ks) (hk : k.tag ≠ .eof) : c.advance.kinds = ks := by
  have hend := atEnd_of_kinds h
  obtain ⟨t, r, hr, -, hks⟩ := List.map_eq_cons_iff.mp h
  simp [advance, hend, hk, hr, kinds, hks]

theorem eats?_of_kinds {p : Punct} (h : c.kinds = .punct p :: ks) :
    c.eats? p = some c.advance ∧ c.advance.kinds = ks := by
  refine ⟨?_, kinds_advance h (by simp [TokenKind.tag])⟩
  simp [eats?, check_of_kinds h, TokenKind.tag]

theorem eats?_of_ne {p : Punct} (h : c.kinds = k :: ks) (hk : k.tag ≠ .punct p) : c.eats? p = none := by
  simp [eats?, check_of_kinds h, hk]

theorem kinds_skip {p : Punct} (h : c.kinds = .punct p :: ks) : (c.skip p).kinds = ks := by
  rw [skip, (eats?_of_kinds h).1]
  exact (eats?_of_kinds h).2

end

/-! ## The current token -/

section
variable {c : Cursor}

theorem kind_of_current {t : Token} (h : c.current = t) : c.kind = t.kind := by rw [kind, h]

theorem kind_of_tag {p : Punct} (h : c.tag = .punct p) : c.kind = .punct p := TokenKind.eq_punct_of_tag h

theorem kind_of_check {p : Punct} (h : c.check (.punct p) = true) : c.kind = .punct p :=
  kind_of_tag (beq_iff_eq.mp h)

theorem check_of_kind {p : Punct} (h : c.kind = .punct p) : c.check (.punct p) = true := by
  show (c.kind.tag == _) = true
  rw [h]
  exact beq_self_eq_true _

theorem check_ident : c.check .ident = true ↔ ∃ name, c.kind = .ident name := by
  show (c.kind.tag == _) = true ↔ _
  rw [beq_iff_eq]
  cases c.kind <;> simp [TokenKind.tag]

theorem eats?_of_kind {p : Punct} (h : c.kind = .punct p) : c.eats? p = some c.advance := if_pos (check_of_kind h)

theorem eats?_none {p : Punct} (h : c.kind ≠ .punct p) : c.eats? p = none := if_neg fun hc => h (kind_of_check hc)

end

/-! ## Facing a list of tokens -/

/-- At the start of `ts`, behind the tokens `past`. -/
def facing (past ts : List Token) : Cursor := ⟨past, ts, 0⟩

section
variable {past ts : List Token} {t : Token}

@[simp] theorem kind_facing : (facing past (t :: ts)).kind = t.kind := rfl

@[simp] theorem span_facing : (facing past (t :: ts)).span = t.span := rfl

@[simp] theorem atEnd_facing : (facing past (t :: ts)).atEnd = (t.kind.tag == .eof) := rfl

theorem advance_facing (h : t.kind ≠ .eof) : (facing past (t :: ts)).advance = facing (t :: past) ts := by
  rw [advance, atEnd_facing, if_neg (by simpa using mt TokenKind.tag_eq_eof.mp h)]
  rfl

end

end Cursor

/-! ## Lists that end in their only `eof` -/

/-- The only `eof` of a token list is its last token. -/
def EndsOnce (ts : List Token) : Prop := ∃ us t, ts = us ++ [t] ∧ t.kind = .eof ∧ ∀ u ∈ us, u.kind ≠ .eof

theorem endsOnce_cons {t : Token} {ts : List Token} :
    EndsOnce (t :: ts) ↔ (t.kind = .eof ∧ ts = []) ∨ (t.kind ≠ .eof ∧ EndsOnce ts) := by
  constructor
  · rintro ⟨us, e, hts, he, hus⟩
    cases us with
    | nil =>
      cases hts
      exact .inl ⟨he, rfl⟩
    | cons u us =>
      cases hts
      obtain ⟨hu, hus⟩ := List.forall_mem_cons.mp hus
      exact .inr ⟨hu, us, e, rfl, he, hus⟩
  · rintro (⟨ht, rfl⟩ | ⟨ht, us, e, rfl, he, hus⟩)
    · exact ⟨[], t, rfl, ht, by simp⟩
    · exact ⟨t :: us, e, rfl, he, List.forall_mem_cons.mpr ⟨ht, hus⟩⟩

theorem not_endsOnce_nil : ¬ EndsOnce [] := by
  rintro ⟨us, e, h, -⟩
  simp at h

theorem EndsOnce.of_cons {t : Token} {ts : List Token} (h : EndsOnce (t :: ts)) (ht : t.kind ≠ .eof) : EndsOnce ts :=
  (endsOnce_cons.mp h).elim (fun he => absurd he.1 ht) (·.2)

theorem endsOnce_of_kinds {ts : List Token} {ks : List TokenKind} (h : ts.map (·.kind) = ks ++ [.eof])
    (hks : TokenKind.eof ∉ ks) : EndsOnce ts := by
  obtain ⟨us, vs, rfl, rfl, hvs⟩ := List.map_eq_append_iff.mp h
  obtain ⟨t, rfl, ht⟩ := List.map_eq_singleton_iff.mp hvs
  exact ⟨us, t, rfl, ht, fun u hu he => hks (List.mem_map.mpr ⟨u, hu, he⟩)⟩

/-- Tokens in front of others have no `eof` among them. -/
theorem endsOnce_append {us ts : List Token} {t : Token} :
    EndsOnce (us ++ t :: ts) ↔ (∀ u ∈ us, u.kind ≠ .eof) ∧ EndsOnce (t :: ts) := by
  induction us with
  | nil => simp
  | cons u us ih => simp [endsOnce_cons (t := u), ih, and_assoc]

/-! ## From the first token to the last -/

/-- The span of the last token. -/
def endOf : List Token → Span
  | [] => .none
  | [t] => t.span
  | _ :: t :: ts => endOf (t :: ts)

/-- From the first token to the last. -/
def spanOf : List Token → Span
  | [] => .none
  | t :: ts => t.span.merge (endOf (t :: ts))

section
variable {t : Token} {ts us : List Token}

@[simp] theorem endOf_singleton : endOf [t] = t.span := rfl

@[simp] theorem endOf_cons (h : us ≠ []) : endOf (t :: us) = endOf us := by
  obtain ⟨u, us, rfl⟩ := List.exists_cons_of_ne_nil h
  rfl

@[simp] theorem endOf_append (h : us ≠ []) : endOf (ts ++ us) = endOf us := by
  induction ts with
  | nil => rfl
  | cons t ts ih => rw [List.cons_append, endOf_cons (by simp [h]), ih]

theorem previousSpan_facing : (Cursor.facing ts us).previousSpan = endOf ts.reverse := by
  cases ts with
  | nil => rfl
  | cons t ts =>
    rw [List.reverse_cons, endOf_append (by simp)]
    rfl

end

end Treewalk
