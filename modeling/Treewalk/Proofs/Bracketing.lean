/-
  Treewalk.Proofs.Bracketing — the brackets of accepted programs, and programs whose brackets match.

  The brackets of an accepted text are level, and they are put together from pairs of one kind; only
  inside statements and object literals that are skipped their kinds are not compared
  (`parse_bracketed`). So `{ while (x } }` is read as a block.

  The other way round, if the brackets of a token list match, then whatever is read from a place on
  has consumed tokens whose brackets match: a bracket that closes an enclosing one is left in place.
  Nothing that is skipped, and no program, ends inside brackets then (`parseTokens_matched`).
-/

import Treewalk.Proofs.Brackets.Parsers
import Treewalk.Proofs.SpanTree
import Treewalk.Proofs.TokenFlow

namespace Treewalk

open Cursor (facing)

namespace Grammar

/-! ## Whole programs -/

theorem keeps_programBody (n : Nat) : KeepsUpTo AwaitsOperand n (programBody n) :=
  keeps_programStatements ((ofDepth_keepsBrackets id n).statement false) n

theorem Covers.statement_ne_nil {s : Node} {ts : List Token} (h : Covers (.statement s) ts) : ts ≠ [] := by
  cases h with
  | expressionStatement he _ => simp [he.expression_ne_nil]
  | _ => simp

theorem Covers.statements_length_le {ss : List Node} {ts : List Token} (h : Covers (.statements ss) ts) :
    ss.length ≤ ts.length := by
  induction ss generalizing ts with
  | nil => exact Nat.zero_le _
  | cons s ss ih =>
    cases h with
    | moreStatements hs hss =>
      have hpos := List.length_pos_iff.mpr hs.statement_ne_nil
      have hle := ih hss
      rw [List.length_cons, List.length_append]
      omega

/-- What is read as a program is put together from brackets and regions. -/
theorem parseTokens_bracketed {body : List Token} {last : Token} {span : Span} {ss : List Node}
    (hend : EndsOnce (body ++ [last])) (hcovers : Covers (.statements ss) body)
    (h : parseTokens (body ++ [last]) = .ok (.program span ss)) : ∃ regions, Bracketed AwaitsOperand [] regions body [last] := by
  rw [parseTokens_eq] at h
  have hkeeps := keeps_programBody (body ++ [last]).length [] (body ++ [last]) hend
  cases hbody : programBody (body ++ [last]).length (facing [] (body ++ [last])) with
  | error e =>
    rw [hbody] at h
    cases h
  | ok r =>
    obtain ⟨ss', c⟩ := r
    rw [hbody] at h hkeeps
    cases h
    obtain ⟨used, rest, hsplit, hrest, rfl, regions, hused⟩ := hkeeps
    -- There are fewer statements than tokens, so that the loop did not stop at its bound.
    have hlt : ss'.length < (body ++ [last]).length := by
      rw [List.length_append]
      exact Nat.lt_succ_of_le hcovers.statements_length_le
    obtain ⟨e, rfl⟩ := endsOnce_atEnd hrest (atEnd_of_programStatements hbody hlt)
    obtain ⟨rfl, hlast⟩ := List.append_inj' hsplit rfl
    exact ⟨regions, hlast ▸ hused⟩

/-! ## Programs in which nothing is skipped -/

section
variable {D : List Token → Prop} {past rest : List Token}

theorem OptionalSemicolon.bracketed {semi : List Token} (h : OptionalSemicolon (semi.map (·.kind))) :
    Bracketed D past [] semi rest := by
  rcases h with h | h
  · rw [List.map_eq_nil_iff.mp h]
    exact .nil
  · obtain ⟨⟨k, s⟩, rfl, rfl⟩ := List.map_eq_singleton_iff.mp h
    exact .token rfl

/-- Behind a token that stands alone. -/
theorem Bracketed.behind {regions : List (List Token)} {t : Token} {ts : List Token}
    (h : Bracketed D (t :: past) regions ts rest) (ht : isPlain t.kind = true) : Bracketed D past regions (t :: ts) rest :=
  (Bracketed.token ht).append h

theorem isPlain_op (op : BinaryOp) : isPlain (.punct op.punct) = true := by cases op <;> rfl

theorem isPlain_declarationWord (word : DeclarationWord) : isPlain (.keyword word.keyword) = true := by cases word <;> rfl

end

theorem Covers.bracketed {D : List Token → Prop} {phrase : Phrase} {past ts rest : List Token} (h : Covers phrase ts)
    (hs : phrase.Supported) : Bracketed D past [] ts rest := by
  induction h generalizing past rest with
  | number | string | ident | null | this | lastParam | plain | empty => exact .token rfl
  | @bool s b => exact .token (by cases b <;> rfl)
  | noItems | noParams | noStatements => exact .nil
  | parenthesized _ ih => exact .pair rfl (ih hs)
  | array _ ih => exact .pair rfl (ih fun e he => hs.child he)
  | dotted _ hname ih => exact (ih (hs.child (by simp [Node.children]))).append (.property hname)
  | computed _ _ iho ihp =>
    have hp : ∀ {past rest}, Bracketed D past [] _ rest := ihp (hs.child (by simp [Node.children]))
    exact (iho (hs.child (by simp [Node.children]))).append (.pair rfl hp)
  | call _ _ ihf ihas =>
    have has : ∀ {past rest}, Bracketed D past [] _ rest := ihas fun a ha => hs.child (by simp [Node.children, ha])
    exact (ihf (hs.child (by simp [Node.children]))).append (.pair rfl has)
  | @binary op _ _ _ _ _ _ _ ihl ihr =>
    exact (ihl (hs.child (by simp [Node.children]))).append
      ((ihr (hs.child (by simp [Node.children]))).behind (isPlain_op op))
  | lastItem _ ih | lastDeclarator _ ih => exact ih (hs _ List.mem_cons_self)
  | item _ _ ihe ihes | moreDeclarators _ _ ihe ihes =>
    obtain ⟨he, hes⟩ := List.forall_mem_cons.mp hs
    exact (ihe he).append ((ihes hes).behind rfl)
  | param _ ih => exact ((ih trivial).behind rfl).behind rfl
  | initialized _ ih => exact ((ih (hs.child (by simp [Node.children]))).behind rfl).behind rfl
  | @declaration word _ _ _ _ _ hsemi ih =>
    exact ((ih fun d hd => hs.child hd).append hsemi.bracketed).behind (isPlain_declarationWord word)
  | @function _ _ _ ts us s s' opened closed _ _ ihps ihbody =>
    have hparams {past rest : List Token} :
        Bracketed D past [] (⟨.punct .lparen, opened⟩ :: (ts ++ [⟨.punct .rparen, closed⟩])) rest := .pair rfl (ihps trivial)
    have hfunction {past rest : List Token} :
        Bracketed D past [] (⟨.punct .lparen, opened⟩ :: (ts ++ ⟨.punct .rparen, closed⟩ :: us)) rest := by
      rw [show ⟨.punct .lparen, opened⟩ :: (ts ++ ⟨.punct .rparen, closed⟩ :: us) =
        (⟨.punct .lparen, opened⟩ :: (ts ++ [⟨.punct .rparen, closed⟩])) ++ us by simp]
      exact hparams.append (ihbody (hs.child (by simp [Node.children])))
    exact (hfunction.behind rfl).behind rfl
  | returning hsemi => exact hsemi.bracketed.behind rfl
  | returningValue _ hsemi ih => exact ((ih (hs.child (by simp [Node.children]))).append hsemi.bracketed).behind rfl
  | block _ ih => exact .pair rfl (ih fun s hm => hs.child hm)
  | expressionStatement _ hsemi ih => exact (ih (hs.child (by simp [Node.children]))).append hsemi.bracketed
  | moreStatements _ _ ihs ihss =>
    obtain ⟨hs, hss⟩ := List.forall_mem_cons.mp hs
    exact (ihs hs).append (ihss hss)
  | signed | joined | recognised | unsupportedStatement => exact absurd hs Node.not_supported_unsupported

/-! ## Tokens whose brackets match -/

/-- The end of input is no bracket. -/
theorem closes_concat {t : Token} (ht : t.kind = .eof) (opened : List Punct) (ts : List Token) :
    closes opened (ts ++ [t]) = closes opened ts := by
  induction ts generalizing opened with
  | nil => simp [closes, ht]
  | cons u us ih => simp only [List.cons_append, closes, ih]

/-- What was read, if anything, are tokens whose brackets match. -/
def TakesMatched {α : Type} (past rest : List Token) (r : Parsed (α × Cursor)) : Prop :=
  ∀ a c, r = .ok (a, c) → ∃ used left, rest = used ++ left ∧ c = facing (used.reverse ++ past) left ∧ Matched used

/-- What is read from `rest` on, behind `past`, with loops of up to `n` rounds. -/
structure CallsMatched (n : Nat) (past rest : List Token) : Prop where
  statement : ∀ inBody, TakesMatched past rest (statementAt (ofDepth n) inBody n (facing past rest))
  expression : ∀ inBody, TakesMatched past rest (expressionAt (ofDepth n) inBody n (facing past rest))
  block : ∀ inBody, TakesMatched past rest (block ((ofDepth n).statement inBody) n (facing past rest))
  paramsAndBody : TakesMatched past rest (paramsAndBody (ofDepth n) n (facing past rest))
  arguments : ∀ inBody, TakesMatched past rest (arguments (ofDepth n) inBody n (facing past rest))
  skipped : ∀ kind, TakesMatched past rest (skipStatement kind n (facing past rest))
  skippedObject : (facing past rest).kind = .punct .lbrace → TakesMatched past rest (skipObject n (facing past rest))
  /-- Skipping does not fail if its bound reaches to the end of input. -/
  skips : rest.length ≤ n + 1 → ∀ kind, ∃ r, skipStatement kind n (facing past rest) = .ok r
  skipsObject : rest.length ≤ n + 1 → (facing past rest).kind = .punct .lbrace →
    ∃ r, skipObject n (facing past rest) = .ok r

section
variable {α : Type} {past rest : List Token} {L : Nat} {r : Parsed (α × Cursor)} (hrest : EndsOnce rest)
  (hmatched : Matched (past.reverse ++ rest)) (hpast : ∀ t ∈ past.reverse, t.kind ≠ .eof)
include hmatched hpast

theorem takesMatched_of_nests (h : ∀ a c, r = .ok (a, c) → ∃ used left, rest = used ++ left ∧
    c = facing (used.reverse ++ past) left ∧ Nests 0 used) : TakesMatched past rest r := by
  intro a c hr
  obtain ⟨used, left, rfl, hc, hused⟩ := h a c hr
  exact ⟨used, left, rfl, hc, hmatched.part past.reverse hpast hused⟩

theorem Keeps.takesMatched {D : List Token → Prop} (h : Keeps D L past rest r) : TakesMatched past rest r := by
  refine takesMatched_of_nests hmatched hpast fun a c hr => ?_
  subst hr
  obtain ⟨used, left, hsplit, -, hc, regions, hused⟩ := h
  exact ⟨used, left, hsplit, hc, hused.nests⟩

theorem Closes.takesMatched (h : Closes L 0 past rest r) : TakesMatched past rest r := by
  refine takesMatched_of_nests hmatched hpast fun a c hr => ?_
  subst hr
  obtain ⟨used, left, hsplit, -, hc, hused⟩ := h
  exact ⟨used, left, hsplit, hc, hused⟩

include hrest

/-- The brackets that are open are closed in what follows. -/
theorem exists_nests_dropLast : ∃ k, Nests k rest.dropLast := by
  obtain ⟨left, hleft⟩ := closes_suffix hmatched hpast
  obtain ⟨us, t, rfl, ht, hus⟩ := hrest
  rw [closes_concat ht] at hleft
  rw [List.dropLast_concat]
  exact ⟨left.length, nests_of_closes hleft hus⟩

theorem Closes.succeeds (h : Closes L 0 past rest r) (hL : rest.length ≤ L) : ∃ x, r = .ok x := by
  cases r with
  | error e =>
    obtain ⟨k, hk⟩ := exists_nests_dropLast hrest hmatched hpast
    exact absurd (h hL k hk) (Nat.not_lt_zero k)
  | ok x => exact ⟨x, rfl⟩

theorem callsMatched (n : Nat) : CallsMatched n past rest := by
  -- Wherever an operand is read, it may begin with an object literal.
  have hg : (ofDepth n).KeepsBrackets (fun _ => True) n := ofDepth_keepsBrackets (fun _ => trivial) n
  have hskip (kind : String) : Closes (n + 1) 0 past rest (skipStatement kind n (facing past rest)) :=
    closes_skipFrom kind _ n [] hrest
  have hobject (hk : (facing past rest).kind = .punct .lbrace) :
      Closes (n + 1) 0 past rest (skipObject n (facing past rest)) := by
    obtain ⟨s, us, rfl, hus, -⟩ := facing_cons_of_kind hrest hk nofun
    exact closes_skipObject n hus
  exact {
    statement := fun inBody => (keeps_statementAt hg inBody past rest hrest).takesMatched hmatched hpast
    expression := fun inBody => (keeps_expressionAt hg inBody past rest hrest fun _ => trivial).takesMatched hmatched hpast
    block := fun inBody => (keeps_block (hg.statement inBody) n past rest hrest).takesMatched hmatched hpast
    paramsAndBody := (keeps_paramsAndBody hg past rest hrest).takesMatched hmatched hpast
    arguments := fun inBody => (keeps_arguments hg inBody past rest hrest).takesMatched hmatched hpast
    skipped := fun kind => (hskip kind).takesMatched hmatched hpast
    skippedObject := fun hk => (hobject hk).takesMatched hmatched hpast
    skips := fun hn kind => (hskip kind).succeeds hrest hmatched hpast hn
    skipsObject := fun hn hk => (hobject hk).succeeds hrest hmatched hpast hn }

end

/-- A program whose brackets match does not end inside brackets. -/
theorem parseTokens_closed {ts : List Token} {e : ParseError} (hend : EndsOnce ts) (hmatched : Matched ts)
    (h : parseTokens ts = .error e) : e.cause.isUnclosed = false := by
  rw [parseTokens_eq] at h
  have hkeeps := keeps_programBody ts.length [] ts hend
  cases hbody : programBody ts.length (facing [] ts) with
  | ok r =>
    rw [hbody] at h
    cases h
  | error e' =>
    rw [hbody] at h hkeeps
    cases h
    have hall : Matched (([] : List Token).reverse ++ ts) := hmatched
    obtain ⟨k, hk⟩ := exists_nests_dropLast hend hall nofun
    by_contra hcause
    exact hkeeps (Bool.eq_true_of_not_eq_false hcause) (Nat.le_refl _) k hk

end Grammar

/-! ## Main results -/

theorem parseTokens_of_parse {source : String} {ts : List Token} {tree : Node} (hlex : lex source = .ok ts)
    (h : parse source = .ok tree) : parseTokens ts = .ok tree := by
  obtain ⟨us, hus, hread⟩ := parse_ok h
  cases hlex.symm.trans hus
  exact hread

/-- An accepted text is put together from matched brackets and from the statements and object literals that are
    skipped, so that its brackets match if theirs do. -/
theorem parse_bracketed {source : String} {tree : Node} (h : parse source = .ok tree) :
    ∃ body last regions, lex source = .ok (body ++ [last]) ∧ last.kind = .eof ∧ Grammar.Nests 0 body ∧
      Grammar.Bracketed Grammar.AwaitsOperand [] regions body [last] ∧
      (Grammar.Matched body ↔ ∀ r ∈ regions, Grammar.Matched r) ∧ (tree.Supported → regions = []) := by
  obtain ⟨body, last, ss, hlex, heof, hcovers, htree⟩ := parse_covers h
  have hread := parseTokens_of_parse hlex h
  have hbracketed : ∃ regions, Grammar.Bracketed Grammar.AwaitsOperand [] regions body [last] ∧
      (tree.Supported → regions = []) := by
    by_cases hs : tree.Supported
    · rw [htree] at hs
      exact ⟨[], hcovers.bracketed fun s hm => hs.child hm, fun _ => rfl⟩
    · rw [htree] at hread
      obtain ⟨regions, hregions⟩ := Grammar.parseTokens_bracketed (lex_endsOnce hlex) hcovers hread
      exact ⟨regions, hregions, fun hs' => absurd hs' hs⟩
  obtain ⟨regions, hregions, hnone⟩ := hbracketed
  exact ⟨body, last, regions, hlex, heof, hregions.nests, hregions, hregions.matched_iff, hnone⟩

/-- What is skipped stands inside brackets that are compared. -/
theorem parse_bracketed_skipped : ∃ tree, parse "f([\x7b a: (b) \x7d], function () \x7b while (x) \x7b \x7d \x7d);" = .ok tree ∧
    ∃ body last regions, lex "f([\x7b a: (b) \x7d], function () \x7b while (x) \x7b \x7d \x7d);" = .ok (body ++ [last]) ∧
      last.kind = .eof ∧ Grammar.Nests 0 body ∧ Grammar.Bracketed Grammar.AwaitsOperand [] regions body [last] ∧
      (Grammar.Matched body ↔ ∀ r ∈ regions, Grammar.Matched r) ∧ (tree.Supported → regions = []) := by
  have hok : (parse "f([\x7b a: (b) \x7d], function () \x7b while (x) \x7b \x7d \x7d);").isOk = true := by decide +kernel
  obtain ⟨tree, h⟩ := exists_parse hok
  exact ⟨tree, h, parse_bracketed h⟩

/-- The brace that should close the block closes a parenthesis of the statement that is skipped. -/
theorem parse_unmatched : ∃ tree ts, parse "\x7b while (x \x7d \x7d" = .ok tree ∧ lex "\x7b while (x \x7d \x7d" = .ok ts ∧
    ¬ Grammar.Matched ts := by
  have hread : (parse "\x7b while (x \x7d \x7d").isOk = true := by decide +kernel
  have hkinds : (match lex "\x7b while (x \x7d \x7d" with
      | .ok ts => decide (Grammar.Matched ts)
      | .error _ => true) = false := by decide +kernel
  obtain ⟨tree, h⟩ := exists_parse hread
  obtain ⟨ts, hlex, -⟩ := parse_ok h
  rw [hlex] at hkinds
  exact ⟨tree, ts, h, hlex, of_decide_eq_false hkinds⟩

/-- While the brackets of a list match, everything read from a place on has consumed brackets that match,
    nothing that is skipped fails, and no bracket is missed at the end of input. -/
theorem parseTokens_matched {ts : List Token} (hend : EndsOnce ts) (hmatched : Grammar.Matched ts) :
    (∀ n past rest, ts = past.reverse ++ rest → rest ≠ [] → Grammar.CallsMatched n past rest) ∧
      ∀ e, parseTokens ts = .error e → ∀ opener place, e.cause ≠ .unclosedDelimiter opener place := by
  constructor
  · rintro n past rest rfl hne
    obtain ⟨t, us, rfl⟩ := List.exists_cons_of_ne_nil hne
    obtain ⟨hpast, hrest⟩ := endsOnce_append.mp hend
    exact Grammar.callsMatched hrest hmatched hpast n
  · intro e h opener place hcause
    have hclosed := Grammar.parseTokens_closed hend hmatched h
    rw [hcause] at hclosed
    cases hclosed

/-- The program `{ while (a) { g({}); } f(function () { }); }`, where braces mean four different things. -/
theorem parseTokens_matched_loop :
    let ts : List Token := [.punct .lbrace, .keyword .whileKw, .punct .lparen, .ident "a", .punct .rparen, .punct .lbrace,
      .ident "g", .punct .lparen, .punct .lbrace, .punct .rbrace, .punct .rparen, .punct .semicolon, .punct .rbrace,
      .ident "f", .punct .lparen, .keyword .functionKw, .punct .lparen, .punct .rparen, .punct .lbrace, .punct .rbrace,
      .punct .rparen, .punct .semicolon, .punct .rbrace, .eof].map fun k => ⟨k, .none⟩
    EndsOnce ts ∧ Grammar.Matched ts ∧
      (∀ n past rest, ts = past.reverse ++ rest → rest ≠ [] → Grammar.CallsMatched n past rest) ∧
      ∀ e, parseTokens ts = .error e → ∀ opener place, e.cause ≠ .unclosedDelimiter opener place := by
  intro ts
  have hend : EndsOnce ts := ⟨ts.dropLast, ⟨.eof, .none⟩, rfl, rfl, by simp [ts]⟩
  have hmatched : Grammar.Matched ts := by decide
  exact ⟨hend, hmatched, parseTokens_matched hend hmatched⟩

end Treewalk
