/-
  Treewalk.Proofs.Progress.Laws — parsers that go forward, and pairs of parsers that go the same way.

  `InStep L d past ts r r'`: of up to `L` tokens `ts` behind `past`, two parsers make the same, and if
  they read something, they have consumed `d` of them at least, and never the last one. Two such
  parsers may differ in the grammar one level further in and in the bounds of their loops.

  Proved: parsers one after another go in step (`InStep.bind`), the second of them on fewer tokens if
  the first consumes one for certain (`InStep.bind_strict`), and so do loops whose bounds are no less
  than the number of tokens (`inStep_loop`).
-/

import Treewalk.Proofs.Brackets.Laws

namespace Treewalk

open Cursor (facing)

namespace Grammar

/-- What was read has consumed `d` tokens or more, and has left the last. -/
def Advances {α : Type} (d : Nat) (past ts : List Token) (r : Parsed (α × Cursor)) : Prop :=
  ∀ a c, r = .ok (a, c) → ∃ used rest, ts = used ++ rest ∧ d ≤ used.length ∧ EndsOnce rest ∧
    c = facing (used.reverse ++ past) rest

def InStep {α : Type} (L d : Nat) (past ts : List Token) (r r' : Parsed (α × Cursor)) : Prop :=
  ts.length ≤ L → r' = r ∧ Advances d past ts r

/-- The parsers go in step, wherever they stand. -/
def InStepUpTo {α : Type} (L d : Nat) (parser parser' : Cursor → Parsed (α × Cursor)) : Prop :=
  ∀ past ts, EndsOnce ts → InStep L d past ts (parser (facing past ts)) (parser' (facing past ts))

section
variable {α β : Type} {L M d : Nat} {past ts : List Token} {t : Token} {r r' : Parsed (α × Cursor)}
  {parser parser' : Cursor → Parsed (α × Cursor)}

theorem advances_ok {a : α} (he : EndsOnce ts) : Advances 0 past ts (.ok (a, facing past ts)) := by
  intro a' c hr
  cases hr
  exact ⟨[], ts, rfl, Nat.zero_le 0, he, rfl⟩

theorem advances_fail {cause : ParseCause} {span : Span} : Advances d past ts (fail cause span : Parsed (α × Cursor)) := by
  intro a c hr
  cases hr

/-- A parser goes in step with itself. -/
theorem Advances.inStep (h : Advances d past ts r) : InStep L d past ts r r := fun _ => ⟨rfl, h⟩

theorem inStep_ok {a : α} (he : EndsOnce ts) : InStep L 0 past ts (.ok (a, facing past ts)) (.ok (a, facing past ts)) :=
  (advances_ok he).inStep

theorem inStep_fail {cause : ParseCause} {span : Span} :
    InStep L d past ts (fail cause span : Parsed (α × Cursor)) (fail cause span) :=
  advances_fail.inStep

theorem InStep.shorten (h : InStep L d past ts r r') (hM : M ≤ L) : InStep M d past ts r r' :=
  fun hlen => h (Nat.le_trans hlen hM)

theorem InStep.weaken (h : InStep L d past ts r r') : InStep L 0 past ts r r' := by
  intro hlen
  obtain ⟨hsame, hr⟩ := h hlen
  refine ⟨hsame, fun a c hac => ?_⟩
  obtain ⟨used, rest, hts, -, hrest, hc⟩ := hr a c hac
  exact ⟨used, rest, hts, Nat.zero_le _, hrest, hc⟩

/-- Where one token less is ahead, and none need be consumed. -/
theorem InStep.relax (h : InStep (L + 1) d past ts r r') : InStep L 0 past ts r r' :=
  h.weaken.shorten (Nat.le_succ L)

theorem inStep_within {context : Context} (h : InStep L d past ts r r') :
    InStep L d past ts (within context r) (within context r') := by
  intro hlen
  obtain ⟨rfl, hr⟩ := h hlen
  refine ⟨rfl, fun a c hac => hr a c ?_⟩
  cases r' with
  | error e => cases hac
  | ok x => exact hac

/-- Behind a token that is consumed. -/
theorem inStep_cons (h : InStep L 0 (t :: past) ts r r') : InStep (L + 1) 1 past (t :: ts) r r' := by
  intro hlen
  obtain ⟨hsame, hr⟩ := h (Nat.le_of_succ_le_succ hlen)
  refine ⟨hsame, fun a c hac => ?_⟩
  obtain ⟨used, rest, rfl, -, hrest, rfl⟩ := hr a c hac
  exact ⟨t :: used, rest, rfl, Nat.succ_pos _, hrest, by simp⟩

section
variable {f f' : α × Cursor → Parsed (β × Cursor)}

theorem InStep.bind_of (h : InStep L d past ts r r') (hM : L ≤ M + d)
    (hf : ∀ a past' rest, EndsOnce rest → InStep M 0 past' rest (f (a, facing past' rest)) (f' (a, facing past' rest))) :
    InStep L d past ts (r >>= f) (r' >>= f') := by
  intro hlen
  obtain ⟨rfl, hr⟩ := h hlen
  cases r' with
  | error e => exact ⟨rfl, nofun⟩
  | ok x =>
    obtain ⟨a, c⟩ := x
    obtain ⟨used, rest, rfl, hused, hrest, rfl⟩ := hr a c rfl
    rw [List.length_append] at hlen
    obtain ⟨hsame, hnext⟩ := hf a _ rest hrest (by omega)
    refine ⟨hsame, fun b c hbc => ?_⟩
    obtain ⟨us, rest, rfl, -, hrest, rfl⟩ := hnext b c hbc
    exact ⟨used ++ us, rest, by simp, by rw [List.length_append]; omega, hrest, by simp⟩

theorem InStep.bind (h : InStep L d past ts r r')
    (hf : ∀ a past' rest, EndsOnce rest → InStep L 0 past' rest (f (a, facing past' rest)) (f' (a, facing past' rest))) :
    InStep L d past ts (r >>= f) (r' >>= f') :=
  h.bind_of (Nat.le_add_right L d) hf

/-- A first parser that consumes a token leaves fewer of them to the second. -/
theorem InStep.bind_strict (h : InStep (L + 1) 1 past ts r r')
    (hf : ∀ a past' rest, EndsOnce rest → InStep L 0 past' rest (f (a, facing past' rest)) (f' (a, facing past' rest))) :
    InStep (L + 1) 1 past ts (r >>= f) (r' >>= f') :=
  h.bind_of (Nat.le_refl (L + 1)) hf

end

/-- There are no lists of no tokens. -/
theorem inStepUpTo_zero : InStepUpTo 0 d parser parser' := by
  intro past ts he hlen
  rw [List.eq_nil_of_length_eq_zero (Nat.le_zero.mp hlen)] at he
  exact absurd he not_endsOnce_nil

/-- Loops that consume a token in each round, on lists of no more tokens than they may take rounds. What
    a round has read so far is `b`. -/
theorem inStep_loop {B : Type} (loop loop' : Nat → B → Cursor → Parsed (α × Cursor))
    (hround : ∀ k k' m, m < L → (∀ b, InStepUpTo m 0 (loop k b) (loop' k' b)) →
      ∀ b, InStepUpTo (m + 1) 0 (loop (k + 1) b) (loop' (k' + 1) b))
    {n n' : Nat} (hn : L ≤ n) (hn' : L ≤ n') (b : B) : InStepUpTo L 0 (loop n b) (loop' n' b) := by
  induction L generalizing n n' b with
  | zero => exact inStepUpTo_zero
  | succ L ih =>
    obtain ⟨k, rfl⟩ : ∃ k, n = k + 1 := ⟨n - 1, by omega⟩
    obtain ⟨k', rfl⟩ : ∃ k', n' = k' + 1 := ⟨n' - 1, by omega⟩
    refine hround k k' L (Nat.lt_succ_self L) (fun b => ?_) b
    exact ih (fun k k' m hm => hround k k' m (Nat.lt_succ_of_lt hm)) (Nat.le_of_succ_le_succ hn)
      (Nat.le_of_succ_le_succ hn') b

end

/-! ## Single tokens -/

section
variable {α : Type} {L M : Nat} {past ts : List Token} {r r' : Parsed (α × Cursor)}

theorem advances_token {k : TokenKind} {a : α} (he : EndsOnce ts) (h : (facing past ts).kind = k) (hk : k ≠ .eof) :
    Advances 1 past ts (.ok (a, (facing past ts).advance)) := by
  obtain ⟨s, us, rfl, hus, hc⟩ := facing_cons_of_kind he h hk
  intro a' c hr
  cases hr
  exact ⟨[⟨k, s⟩], us, rfl, Nat.le_refl 1, hus, hc⟩

theorem inStep_token {k : TokenKind} {a : α} (he : EndsOnce ts) (h : (facing past ts).kind = k) (hk : k ≠ .eof) :
    InStep L 1 past ts (.ok (a, (facing past ts).advance)) (.ok (a, (facing past ts).advance)) :=
  (advances_token he h hk).inStep

theorem inStep_expect (p : Punct) : InStepUpTo L 1 (expect p) (expect p) := by
  intro past ts he
  unfold expect
  split
  · rename_i hcheck
    exact inStep_token he (Cursor.kind_of_check hcheck) nofun
  · exact inStep_fail

theorem inStep_expectClosing (close opener : Punct) (opened : Span) :
    InStepUpTo L 1 (expectClosing close opener opened) (expectClosing close opener opened) := by
  intro past ts he
  unfold expectClosing
  split
  · exact inStep_fail
  · exact inStep_expect close past ts he

theorem inStep_expectIdent : InStepUpTo L 1 expectIdent expectIdent := by
  intro past ts he
  unfold expectIdent
  split
  · rename_i name hk
    exact inStep_token he hk nofun
  · exact inStep_fail

theorem inStep_propertyName : InStepUpTo L 1 propertyName propertyName := by
  intro past ts he
  unfold propertyName
  split
  · rename_i name hk
    exact inStep_token he hk nofun
  · rename_i k hk
    exact inStep_token he hk nofun
  · exact inStep_fail

/-- A token may be there, for both parsers or for neither; behind it there is one less. -/
theorem inStep_eats {p : Punct} {f f' : Cursor → Parsed (α × Cursor)} (hM : L ≤ M + 1) (he : EndsOnce ts)
    (hr : InStep L 0 past ts r r')
    (hf : ∀ past' rest, EndsOnce rest → InStep M 0 past' rest (f (facing past' rest)) (f' (facing past' rest))) :
    InStep L 0 past ts (match (facing past ts).eats? p with | none => r | some c => f c)
      (match (facing past ts).eats? p with | none => r' | some c => f' c) := by
  cases hc : (facing past ts).eats? p with
  | none => exact hr
  | some c =>
    obtain ⟨s, us, rfl, hus, rfl⟩ := facing_eats? he hc
    exact (inStep_cons (hf _ us hus)).weaken.shorten hM

/-- A token that is consumed if it is there. -/
theorem inStep_skip {p : Punct} {a : α} (he : EndsOnce ts) :
    InStep L 0 past ts (.ok (a, (facing past ts).skip p)) (.ok (a, (facing past ts).skip p)) := by
  unfold Cursor.skip
  cases hc : (facing past ts).eats? p with
  | none => exact inStep_ok he
  | some c =>
    obtain ⟨s, us, rfl, hus, rfl⟩ := facing_eats? he hc
    exact (inStep_cons (inStep_ok hus)).relax

/-! ## Skipped constructs -/

/-- A loop that passes a token in each round and stops at the end of input, whatever its bound: up to there the bound
    is not met. What it has counted so far is `b`. -/
theorem loop_bound {B : Type} (loop : Nat → B → Cursor → Parsed (α × Cursor))
    (hend : ∀ m m' b past t, t.kind = .eof → loop m' b (facing past [t]) = loop m b (facing past [t]))
    (hround : ∀ m m' b past t us, t.kind ≠ .eof →
      (∀ b past, loop m' b (facing past us) = loop m b (facing past us)) →
      loop (m' + 1) b (facing past (t :: us)) = loop (m + 1) b (facing past (t :: us)))
    {n n' : Nat} (he : EndsOnce ts) (hn : ts.length ≤ n + 1) (hn' : ts.length ≤ n' + 1) (b : B) (past : List Token) :
    loop n' b (facing past ts) = loop n b (facing past ts) := by
  induction ts generalizing past b n n' with
  | nil => exact absurd he not_endsOnce_nil
  | cons t us ih =>
    rcases endsOnce_cons.mp he with ⟨ht, rfl⟩ | ⟨ht, hus⟩
    · exact hend n n' b past t ht
    · have hpos := List.length_pos_of_ne_nil (fun hnil => not_endsOnce_nil (hnil ▸ hus))
      rw [List.length_cons] at hn hn'
      obtain ⟨m, rfl⟩ : ∃ m, n = m + 1 := ⟨n - 1, by omega⟩
      obtain ⟨m', rfl⟩ : ∃ m', n' = m' + 1 := ⟨n' - 1, by omega⟩
      exact hround m m' b past t us ht fun b past => ih hus (by omega) (by omega) b past

theorem skipFrom_bound (kind : String) (start : Span) (opened : List (Punct × Span)) {n n' : Nat} (he : EndsOnce ts)
    (hn : ts.length ≤ n + 1) (hn' : ts.length ≤ n' + 1) :
    skipFrom kind start n' opened (facing past ts) = skipFrom kind start n opened (facing past ts) := by
  refine loop_bound (skipFrom kind start) (fun m m' opened past t ht => ?_) (fun m m' opened past t us ht h => ?_)
    he hn hn' opened past
  · have hend (k : Nat) : skipFrom kind start k opened (facing past [t]) =
        skippedAtEnd kind start opened (facing past [t]) := by
      cases k with
      | zero => rfl
      | succ k => rw [skipFrom, Cursor.kind_facing, ht]
    rw [hend, hend]
  · simp only [skipFrom, Cursor.advance_facing ht, h]

theorem skipObjectFrom_bound (start : Span) (depth : Nat) {n n' : Nat} (he : EndsOnce ts)
    (hn : ts.length ≤ n + 1) (hn' : ts.length ≤ n' + 1) :
    skipObjectFrom start n' depth (facing past ts) = skipObjectFrom start n depth (facing past ts) := by
  refine loop_bound (skipObjectFrom start) (fun m m' depth past t ht => ?_) (fun m m' depth past t us ht h => ?_)
    he hn hn' depth past
  · have hend (k : Nat) : skipObjectFrom start k depth (facing past [t]) =
        within .unsupportedSyntax (unclosed .lbrace start (facing past [t])) := by
      cases k with
      | zero => rfl
      | succ k => rw [skipObjectFrom, Cursor.kind_facing, ht]
    rw [hend, hend]
  · simp only [skipObjectFrom, Cursor.advance_facing ht, h]

theorem Closes.advances {M d : Nat} {r : Parsed (α × Cursor)} (h : Closes M d past ts r) : Advances 0 past ts r := by
  intro a c hr
  subst hr
  obtain ⟨used, rest, hts, hrest, hc, -⟩ := h
  exact ⟨used, rest, hts, Nat.zero_le _, hrest, hc⟩

section
variable {n n' : Nat} (hn : L ≤ n) (hn' : L ≤ n') (he : EndsOnce ts)
include hn hn' he

/-- The word in front of a statement that is skipped is consumed. -/
theorem inStep_skipStatement (kind : String) {w : Keyword} (hk : (facing past ts).kind = .keyword w) :
    InStep (L + 1) 1 past ts (skipStatement kind n (facing past ts)) (skipStatement kind n' (facing past ts)) := by
  obtain ⟨s, us, rfl, hus, -⟩ := facing_cons_of_kind he hk (by simp)
  intro hlen
  have hpos := List.length_pos_of_ne_nil (fun hnil => not_endsOnce_nil (hnil ▸ hus))
  rw [List.length_cons] at hlen
  refine ⟨skipFrom_bound kind s [] he (by rw [List.length_cons]; omega) (by rw [List.length_cons]; omega), ?_⟩
  obtain ⟨m, rfl⟩ : ∃ m, n = m + 1 := ⟨n - 1, by omega⟩
  have hskip : skipStatement kind (m + 1) (facing past (⟨.keyword w, s⟩ :: us)) =
      skipFrom kind s m [] (facing (⟨.keyword w, s⟩ :: past) us) := by
    simp only [skipStatement, skipFrom, Cursor.kind_facing, Cursor.span_facing,
      Cursor.advance_facing (t := ⟨.keyword w, s⟩) (by simp)]
  rw [hskip]
  have hrest : InStep L 0 (⟨.keyword w, s⟩ :: past) us _ _ := (closes_skipFrom kind s m [] hus).advances.inStep
  exact (inStep_cons hrest (by rw [List.length_cons]; omega)).2

/-- So is the brace in front of an object literal. -/
theorem inStep_skipObject (hk : (facing past ts).kind = .punct .lbrace) :
    InStep (L + 1) 1 past ts (skipObject n (facing past ts)) (skipObject n' (facing past ts)) := by
  obtain ⟨s, us, rfl, hus, -⟩ := facing_cons_of_kind he hk (by simp)
  intro hlen
  have hpos := List.length_pos_of_ne_nil (fun hnil => not_endsOnce_nil (hnil ▸ hus))
  rw [List.length_cons] at hlen
  refine ⟨skipObjectFrom_bound s 0 he (by rw [List.length_cons]; omega) (by rw [List.length_cons]; omega), ?_⟩
  obtain ⟨m, rfl⟩ : ∃ m, n = m + 1 := ⟨n - 1, by omega⟩
  have hskip : skipObject (m + 1) (facing past (⟨.punct .lbrace, s⟩ :: us)) =
      skipObjectFrom s m 1 (facing (⟨.punct .lbrace, s⟩ :: past) us) := by
    simp only [skipObject, skipObjectFrom, Cursor.kind_facing, Cursor.span_facing, Punct.isOpener, if_true,
      Cursor.advance_facing (t := ⟨.punct .lbrace, s⟩) (by simp)]
  rw [hskip]
  have hrest : InStep L 0 (⟨.punct .lbrace, s⟩ :: past) us _ _ := (closes_skipObjectFrom s m 0 hus).advances.inStep
  exact (inStep_cons hrest (by rw [List.length_cons]; omega)).2

end

end

end Grammar

end Treewalk
