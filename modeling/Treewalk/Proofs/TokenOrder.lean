/-
  Treewalk.Proofs.TokenOrder — how the tokens of a text stand in it.

  The lexer goes through a text lexeme by lexeme, each the longest there is (`lexFrom_induction`).
  `InOrder stop pos ts`: the tokens stand one behind the other from `pos` on, none of them empty, and
  end in their only `eof`, an empty one at `stop`.

  Proved: the tokens of a text end in their only `eof` (`lex_endsOnce`) and do not reach beyond it
  (`lex_inside`). If spans can hold all its offsets, they stand in order between its start and its end
  (`lex_inOrder`).
-/

import Mathlib.Data.String.Basic
import Treewalk.Proofs.Ahead
import Treewalk.Proofs.MaximalMunch

namespace Treewalk

inductive InOrder (stop : Nat) : Nat → List Token → Prop
  | eof {pos : Nat} : pos ≤ stop → InOrder stop pos [⟨.eof, .point stop⟩]
  | token {pos : Nat} {t : Token} {ts : List Token} : t.kind ≠ .eof → pos ≤ t.span.start →
      t.span.start < t.span.stop → InOrder stop t.span.stop ts → InOrder stop pos (t :: ts)

theorem InOrder.of_le {stop pos pos' : Nat} {ts : List Token} (h : InOrder stop pos ts) (hle : pos' ≤ pos) :
    InOrder stop pos' ts := by
  cases h with
  | eof hpos => exact .eof (Nat.le_trans hle hpos)
  | token hk hpos hlt hts => exact .token hk (Nat.le_trans hle hpos) hlt hts

namespace Lexer

open Escape (byteLength)

@[simp] theorem byteLength_nil : byteLength [] = 0 := rfl

@[simp] theorem byteLength_cons (c : Char) (cs : List Char) : byteLength (c :: cs) = c.utf8Size + byteLength cs := rfl

theorem byteLength_append (cs ds : List Char) : byteLength (cs ++ ds) = byteLength cs + byteLength ds := by
  induction cs with
  | nil => simp
  | cons c cs ih => simp [ih, Nat.add_assoc]

theorem byteLength_pos {cs : List Char} (h : cs ≠ []) : 0 < byteLength cs := by
  obtain ⟨c, cs, rfl⟩ := List.exists_cons_of_ne_nil h
  exact Nat.add_pos_left c.utf8Size_pos _

theorem byteLength_toList (s : String) : byteLength s.toList = s.utf8ByteSize := by
  have h (cs : List Char) : byteLength cs = String.utf8Len cs := by
    induction cs with
    | nil => rfl
    | cons c cs ih => simp [ih, Nat.add_comm]
  rw [h, ← String.utf8ByteSize_ofList, String.ofList_toList]

/-! ## One step of the lexer -/

section
variable {pos n : Nat} {c : Char} {cs l rest text : List Char} {s : Shape} {span : Span} {k : TokenKind} {ts : List Token}

theorem wordKind_ne_eof (text : String) : wordKind text ≠ .eof := by
  unfold wordKind
  split <;> simp

/-- No lexeme makes an `eof`. -/
theorem kind_ne_eof (h : kind s l span = .ok (some k)) : k ≠ .eof := by
  rintro rfl
  cases s <;> simp only [kind, reduceCtorEq, Except.ok.injEq, Option.some.injEq] at h
  case word => exact wordKind_ne_eof _ h
  case hexNumber =>
    unfold hexKind? at h
    split at h <;> simp_all
  case number => cases hr : Decimal.read? l <;> simp [hr] at h
  case string => split at h <;> simp at h

theorem Longest.shape_eq (h : Longest s n (c :: cs)) : shape c cs = (s, n) := by
  rcases shape_longest c cs with h' | ⟨-, hnone⟩
  · obtain ⟨hs, hn⟩ := h'.unique h
    exact Prod.ext hs hn
  · exact absurd (List.take_prefix _ _) (hnone s _ h.spells)

theorem Longest.spells_lexeme (h : Longest s l.length (l ++ rest)) : Spells s l := by
  simpa using h.spells

/-- The lexeme in front, and what is behind it. -/
theorem exists_longest (h : lexFrom pos (c :: cs) = .ok ts) :
    ∃ s l rest, c :: cs = l ++ rest ∧ Longest s l.length (l ++ rest) := by
  rcases shape_longest c cs with hl | ⟨hs, -⟩
  · refine ⟨(shape c cs).1, (c :: cs).take (shape c cs).2, (c :: cs).drop (shape c cs).2, by simp, ?_⟩
    rwa [List.take_append_drop, List.length_take_of_le hl.le]
  · rw [lexFrom] at h
    simp [hs, kind] at h

theorem lexFrom_step (h : Longest s l.length (l ++ rest)) :
    lexFrom pos (l ++ rest) =
      match kind s l (.between pos (pos + byteLength l)) with
      | .error e => .error e
      | .ok none => lexFrom (pos + byteLength l) rest
      | .ok (some k) =>
        (lexFrom (pos + byteLength l) rest).map (⟨k, .between pos (pos + byteLength l)⟩ :: ·) := by
  cases l with
  | nil => exact absurd rfl h.spells_lexeme.ne_nil
  | cons c l =>
    have hs : shape c (l ++ rest) = (s, (c :: l).length) := h.shape_eq
    have htake : c :: (l ++ rest).take ((c :: l).length - 1) = c :: l := by simp
    have hdrop : (l ++ rest).drop ((c :: l).length - 1) = rest := by simp
    rw [List.cons_append, lexFrom]
    rcases hk : kind s (c :: l) (.between pos (pos + byteLength (c :: l))) with _ | _ | _ <;>
      simp only [hs, htake, hdrop, hk]

theorem lexFrom_skip (h : Longest s l.length (l ++ rest))
    (hk : kind s l (.between pos (pos + byteLength l)) = .ok none) :
    lexFrom pos (l ++ rest) = lexFrom (pos + byteLength l) rest := by
  rw [lexFrom_step h, hk]

theorem lexFrom_token (h : Longest s l.length (l ++ rest))
    (hk : kind s l (.between pos (pos + byteLength l)) = .ok (some k)) :
    lexFrom pos (l ++ rest) =
      (lexFrom (pos + byteLength l) rest).map (⟨k, .between pos (pos + byteLength l)⟩ :: ·) := by
  rw [lexFrom_step h, hk]

/-- What holds at the end of a text, and in front of each lexeme if it does behind it, holds of the
    text and its tokens. Of what is skipped the end may be skipped with what follows it. -/
theorem lexFrom_induction {motive : Nat → List Char → List Token → Prop}
    (eof : ∀ pos, motive pos [] [⟨.eof, .point (Span.clamp pos)⟩])
    (skip : ∀ {pos s l rest ts}, Longest s l.length (l ++ rest) →
      kind s l (.between pos (pos + byteLength l)) = .ok none → lexFrom (pos + byteLength l) rest = .ok ts →
      (∀ {pos' text}, text.length ≤ rest.length → lexFrom pos' text = .ok ts → motive pos' text ts) →
      motive pos (l ++ rest) ts)
    (token : ∀ {pos s l rest k ts}, Longest s l.length (l ++ rest) →
      kind s l (.between pos (pos + byteLength l)) = .ok (some k) → motive (pos + byteLength l) rest ts →
      motive pos (l ++ rest) (⟨k, .between pos (pos + byteLength l)⟩ :: ts))
    (h : lexFrom pos text = .ok ts) : motive pos text ts := by
  induction hn : text.length using Nat.strong_induction_on generalizing pos text ts with
  | _ n ih =>
  subst hn
  cases text with
  | nil =>
    simp only [lexFrom, Except.ok.injEq] at h
    subst h
    exact eof pos
  | cons c cs =>
    obtain ⟨s, l, rest, htext, hl⟩ := exists_longest h
    rw [htext] at h ⊢
    have hshorter : rest.length < (c :: cs).length := by
      have hpos := List.length_pos_of_ne_nil hl.spells_lexeme.ne_nil
      rw [htext, List.length_append]
      omega
    cases hk : kind s l (.between pos (pos + byteLength l)) with
    | error e => simp [lexFrom_step hl, hk] at h
    | ok r =>
      cases r with
      | none =>
        rw [lexFrom_skip hl hk] at h
        exact skip hl hk h fun hle htext => ih _ (Nat.lt_of_le_of_lt hle hshorter) htext rfl
      | some k =>
        rw [lexFrom_token hl hk] at h
        cases hrest : lexFrom (pos + byteLength l) rest with
        | error e => simp [hrest, Except.map] at h
        | ok us =>
          simp only [hrest, Except.map, Except.ok.injEq] at h
          subst h
          exact token hl hk (ih _ hshorter hrest rfl)

/-! ## The tokens of a text -/

theorem lexFrom_endsOnce (h : lexFrom pos text = .ok ts) : EndsOnce ts := by
  refine lexFrom_induction (motive := fun _ _ ts => EndsOnce ts) ?_ ?_ ?_ h
  · exact fun _ => endsOnce_cons.mpr (.inl ⟨rfl, rfl⟩)
  · exact fun _ _ hrest ih => ih (Nat.le_refl _) hrest
  · exact fun _ hk hts => endsOnce_cons.mpr (.inr ⟨kind_ne_eof hk, hts⟩)

theorem lexFrom_inside (h : lexFrom pos text = .ok ts) :
    ∀ t ∈ ts, t.span.start ≤ t.span.stop ∧ t.span.stop ≤ pos + byteLength text := by
  refine lexFrom_induction
    (motive := fun pos text ts => ∀ t ∈ ts, t.span.start ≤ t.span.stop ∧ t.span.stop ≤ pos + byteLength text) ?_ ?_ ?_ h
  · intro pos t ht
    obtain rfl := List.mem_singleton.mp ht
    exact ⟨Nat.le_refl _, Nat.min_le_left _ _⟩
  · intro pos s l rest ts _ _ hrest ih
    rw [byteLength_append, ← Nat.add_assoc]
    exact ih (Nat.le_refl _) hrest
  · intro pos s l rest k ts _ _ hts
    rw [byteLength_append, ← Nat.add_assoc]
    refine List.forall_mem_cons.mpr ⟨?_, hts⟩
    rcases Span.between_cases pos (pos + byteLength l) with hspan | hspan
    · simp [hspan]
    · simp [hspan, Span.none]

/-- The spans are those of the lexemes, as long as these have one. -/
theorem lexFrom_inOrder (h : lexFrom pos text = .ok ts) (hfits : pos + byteLength text ≤ Span.maxOffset) :
    InOrder (pos + byteLength text) pos ts := by
  revert hfits
  refine lexFrom_induction (motive := fun pos text ts => pos + byteLength text ≤ Span.maxOffset →
    InOrder (pos + byteLength text) pos ts) ?_ ?_ ?_ h
  · intro pos hfits
    rw [show Span.clamp pos = pos from Span.clamp_of_le hfits]
    exact .eof (Nat.le_refl _)
  · intro pos s l rest ts _ _ hrest ih hfits
    rw [byteLength_append, ← Nat.add_assoc] at hfits ⊢
    exact (ih (Nat.le_refl _) hrest hfits).of_le (Nat.le_add_right _ _)
  · intro pos s l rest k ts hl hk hts hfits
    have hpos := byteLength_pos hl.spells_lexeme.ne_nil
    rw [byteLength_append, ← Nat.add_assoc] at hfits ⊢
    rw [Span.between_of_le (by omega) (by omega)]
    exact .token (kind_ne_eof hk) (Nat.le_refl _) (Nat.lt_add_of_pos_right hpos) (hts hfits)

end

end Lexer

section
variable {source : String} {ts : List Token}

theorem lex_endsOnce (h : lex source = .ok ts) : EndsOnce ts := Lexer.lexFrom_endsOnce h

/-- No token reaches beyond the text. -/
theorem lex_inside (h : lex source = .ok ts) :
    ∀ t ∈ ts, t.span.start ≤ t.span.stop ∧ t.span.stop ≤ source.utf8ByteSize := by
  have hinside := Lexer.lexFrom_inside h
  rwa [Lexer.byteLength_toList, Nat.zero_add] at hinside

theorem lex_inOrder (h : lex source = .ok ts) (hfits : source.utf8ByteSize ≤ Span.maxOffset) :
    InOrder source.utf8ByteSize 0 ts := by
  rw [← Lexer.byteLength_toList, ← Nat.zero_add (Escape.byteLength _)] at hfits ⊢
  exact Lexer.lexFrom_inOrder h hfits

end

end Treewalk
