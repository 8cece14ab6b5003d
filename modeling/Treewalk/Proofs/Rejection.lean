/-
  Treewalk.Proofs.Rejection — what becomes of a token list, and where one is rejected.

  A list that ends in its only `eof` is either covered by the statements of the tree it is read as, or
  rejected at its first impossible token: what stands behind that token makes no difference to the
  error, and what stands before it can be carried on to a program.

  Proved: what is read covers the whole list (`parseTokens_covers`); a rejected list is so in one place,
  which the error points at (`rejected_once`).
-/

import Treewalk.Proofs.Prediction.Statements

namespace Treewalk

namespace Grammar

open Cursor (facing)

/-- The statements of a program. -/
def programBody : Bounded (List Node) := fun n => programStatements ((ofDepth n).statement false) n

theorem settles_programBody (L : Nat) : Settles (fun n => n) [] programBody
    ⟨{.eof}, {.eof}, fun ts ss => Covers (.statements ss) ts⟩ L :=
  settles_programStatements (fun past => (predicts L).statement false past) fun n => Nat.le_refl n

theorem parseTokens_eq (ts : List Token) : parseTokens ts = (programBody ts.length (facing [] ts)).map fun r =>
    .program ((facing [] ts).span.merge r.2.span) r.1 := by
  unfold parseTokens program programBody Cursor.ofList facing
  cases programStatements ((ofDepth ts.length).statement false) ts.length ⟨[], ts, 0⟩ <;> rfl

/-- The statements of a program are read up to the end of input, unless there are as many as may be read. -/
theorem atEnd_of_programStatements {statement : Cursor → Parsed (Node × Cursor)} {n : Nat} {c c' : Cursor}
    {ss : List Node} (h : programStatements statement n c = .ok (ss, c')) (hn : ss.length < n) : c'.atEnd = true := by
  induction n generalizing c ss with
  | zero => omega
  | succ n ih =>
    unfold programStatements at h
    split at h
    · cases h
      assumption
    · cases hs : statement c with
      | error e =>
        rw [hs] at h
        cases h
      | ok r =>
        obtain ⟨s, c₁⟩ := r
        cases hss : programStatements statement n c₁ with
        | error e =>
          simp only [hs, hss, bind, Except.bind] at h
          cases h
        | ok r =>
          obtain ⟨rest, c₂⟩ := r
          simp only [hs, hss, bind, Except.bind, pure, Except.pure, Except.ok.injEq, Prod.mk.injEq] at h
          obtain ⟨rfl, rfl⟩ := h
          exact ih hss (by simpa using hn)

section
variable {used : List Token} {next : Token}

theorem Takes.at_eof {ss : List Node} (h : Takes (fun n => n) [] programBody used next (.ok ss)) : next.kind = .eof := by
  -- With a bound beyond the number of statements the loop ends nowhere else.
  have hread := h (max (used ++ [next]).length (ss.length + 1)) [] (Nat.le_max_left _ _)
  have hat := atEnd_of_programStatements hread (Nat.lt_of_succ_le (Nat.le_max_right _ _))
  simpa [TokenKind.tag_eq_eof] using hat

theorem Takes.parseTokens_ok {ss : List Node} (h : Takes (fun n => n) [] programBody used next (.ok ss)) :
    parseTokens (used ++ [next]) = .ok (.program (spanOf (used ++ [next])) ss) := by
  have hspan : spanOf (used ++ [next]) = (facing [] (used ++ [next])).span.merge next.span := by
    cases used with
    | nil => rfl
    | cons t us => simp [spanOf]
  rw [parseTokens_eq, h _ [] (Nat.le_refl _), hspan]
  rfl

theorem Takes.parseTokens_error {e : ParseError} (h : Takes (fun n => n) [] programBody used next (.error e))
    (rest : List Token) : parseTokens (used ++ next :: rest) = .error e := by
  rw [parseTokens_eq, h _ rest (Nat.le_refl _)]
  rfl

end

end Grammar

/-- The token in place `i` is the first with which the list cannot be a program, and the error points
    at it. -/
structure FirstImpossible (ts : List Token) (e : ParseError) (i : Nat) : Prop where
  points : ∃ t, ts[i]? = some t ∧ e.PointsAt t
  decided : ∀ us : List Token, us.take (i + 1) = ts.take (i + 1) → parseTokens us = .error e
  viable : ∃ us tree, EndsOnce us ∧ us.take i = ts.take i ∧ parseTokens us = .ok tree

theorem FirstImpossible.le {ts : List Token} {e e' : ParseError} {i j : Nat} (hi : FirstImpossible ts e i)
    (hj : FirstImpossible ts e' j) : j ≤ i := by
  by_cases hlt : i + 1 ≤ j
  · obtain ⟨us, tree, -, hus, hok⟩ := hj.viable
    have hsame : us.take (i + 1) = ts.take (i + 1) := by
      have := congrArg (List.take (i + 1)) hus
      rwa [List.take_take, List.take_take, Nat.min_eq_left hlt] at this
    rw [hi.decided us hsame] at hok
    cases hok
  · omega

/-- The list is read as a program that covers it, or it is rejected. -/
theorem parseTokens_outcome {ts : List Token} (hend : EndsOnce ts) :
    (∃ body t ss, ts = body ++ [t] ∧ t.kind = .eof ∧ Grammar.Covers (.statements ss) body ∧
      parseTokens ts = .ok (.program (spanOf ts) ss)) ∨
    ∃ e i, parseTokens ts = .error e ∧ FirstImpossible ts e i := by
  obtain ⟨t, ts, rfl⟩ : ∃ t us, ts = t :: us := by
    cases ts with
    | nil => exact absurd hend not_endsOnce_nil
    | cons t us => exact ⟨t, us, rfl⟩
  obtain ⟨used, next, rest, hts, ⟨ss, hss⟩ | ⟨e, he⟩⟩ := (Grammar.settles_programBody _).runs t ts hend (Nat.le_refl _)
  · have htakes := hss.takes next (.inl rfl)
    have heof := htakes.at_eof
    rw [hts] at hend ⊢
    obtain rfl : rest = [] := by
      obtain ⟨-, hrest⟩ := endsOnce_append.mp hend
      exact (endsOnce_cons.mp hrest).elim (·.2) fun hne => absurd heof hne.1
    exact .inl ⟨used, next, ss, rfl, heof, hss.result, htakes.parseTokens_ok⟩
  · rw [hts]
    refine .inr ⟨e, used.length, he.takes.parseTokens_error rest, ⟨next, by simp, he.points⟩, ?_, ?_⟩
    · intro us hus
      have hsplit : us = used ++ next :: us.drop (used.length + 1) := by
        have htake : (used ++ next :: rest).take (used.length + 1) = used ++ [next] := by
          simp [List.take_append, List.take_of_length_le]
        have := (List.take_append_drop (used.length + 1) us).symm
        rwa [hus, htake, List.append_assoc] at this
      rw [hsplit]
      exact he.takes.parseTokens_error _
    · by_cases hused : used = []
      · subst hused
        exact ⟨[⟨.eof, .none⟩], _, endsOnce_cons.mpr (.inl ⟨rfl, rfl⟩), rfl, rfl⟩
      · obtain ⟨ext, ss, hss, htakes⟩ := he.completes hused
        have hend : EndsOnce (used ++ ext ++ [⟨.eof, .none⟩]) :=
          endsOnce_append.mpr ⟨hss.nests.ne_eof, endsOnce_cons.mpr (.inl ⟨rfl, rfl⟩)⟩
        exact ⟨_, _, hend, by simp, (htakes ⟨.eof, .none⟩ rfl).parseTokens_ok⟩

/-- What is read covers all tokens before the `eof`. -/
theorem parseTokens_covers {ts : List Token} {tree : Node} (hend : EndsOnce ts) (h : parseTokens ts = .ok tree) :
    ∃ body last ss, ts = body ++ [last] ∧ last.kind = .eof ∧ Grammar.Covers (.statements ss) body ∧
      tree = .program (spanOf ts) ss := by
  obtain ⟨body, last, ss, hts, hlast, hcovers, hok⟩ | ⟨e, i, he, -⟩ := parseTokens_outcome hend
  · rw [h] at hok
    cases hok
    exact ⟨body, last, ss, hts, hlast, hcovers, rfl⟩
  · rw [h] at he
    cases he

/-- A list that is rejected is rejected at its first impossible token. -/
theorem rejected_once {ts : List Token} {e : ParseError} (hend : EndsOnce ts) (h : parseTokens ts = .error e) :
    ∃! i, FirstImpossible ts e i := by
  obtain ⟨_, _, _, -, -, -, hok⟩ | ⟨e', i, he', hi⟩ := parseTokens_outcome hend
  · rw [h] at hok
    cases hok
  · rw [h] at he'
    cases he'
    exact ⟨i, hi, fun j hj => Nat.le_antisymm (hi.le hj) (hj.le hi)⟩

/-- A call whose second argument lacks its comma. -/
theorem rejected_once_argument :
    let ts : List Token := [⟨.ident "f", ⟨0, 1⟩⟩, ⟨.punct .lparen, ⟨1, 2⟩⟩, ⟨.ident "a", ⟨2, 3⟩⟩, ⟨.ident "b", ⟨4, 5⟩⟩,
      ⟨.punct .rparen, ⟨5, 6⟩⟩, ⟨.eof, ⟨6, 6⟩⟩]
    let e : ParseError := ⟨.unexpectedToken (.punct .rparen) .ident, ⟨4, 5⟩, some .callArguments⟩
    EndsOnce ts ∧ parseTokens ts = .error e ∧ ∃! i, FirstImpossible ts e i := by
  intro ts e
  have hend : EndsOnce ts := ⟨ts.dropLast, ⟨.eof, ⟨6, 6⟩⟩, rfl, rfl, by simp [ts]⟩
  have hread : parseTokens ts = .error e := rfl
  exact ⟨hend, hread, rejected_once hend hread⟩

end Treewalk
