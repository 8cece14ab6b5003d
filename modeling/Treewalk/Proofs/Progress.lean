/-
  Treewalk.Proofs.Progress — parsing comes to an end, and forward until then.

  The functions of the grammar call each other to any depth and loop without a bound; `Grammar.ofDepth`
  cuts both off at a number. `Levels L g` says that `g` is made by the rules of the grammar `L` levels
  deep, with loops that have room for as many rounds, around anything at all: a call that comes to the
  same for all such `g` never goes deeper and never loops longer.

  Proved: on `L` tokens no call nests deeper than `L` levels (`Levels.agree`), so the recursion needs no
  bounds (`unbounded_rules`); a statement or an expression that was read has taken the cursor forward,
  within the list, and a program is read up to its `eof` (`parseTokens_progress`).
-/

import Mathlib.Logic.Function.Iterate
import Treewalk.Proofs.Progress.Parsers
import Treewalk.Proofs.Rejection

namespace Treewalk

open Cursor (facing)

/-! ## Places in a list -/

/-- The tokens of `ts` before the cursor are consumed, and there are some ahead. -/
def Cursor.At (ts : List Token) (c : Cursor) : Prop := ∃ past rest, ts = past.reverse ++ rest ∧ rest ≠ [] ∧ c = facing past rest

section
variable {ts : List Token} {c : Cursor}

theorem Cursor.At.ahead (h : c.At ts) : c.position + c.rest.length = ts.length := by
  obtain ⟨past, rest, rfl, -, rfl⟩ := h
  simp [facing, Cursor.position]

theorem Cursor.At.endsOnce (h : c.At ts) (hend : EndsOnce ts) : ∃ past, EndsOnce c.rest ∧ c = facing past c.rest := by
  obtain ⟨past, rest, rfl, hne, rfl⟩ := h
  obtain ⟨t, us, rfl⟩ := List.exists_cons_of_ne_nil hne
  exact ⟨past, (endsOnce_append.mp hend).2, rfl⟩

/-- The end of input is the last token. -/
theorem Cursor.At.last (h : c.At ts) (hend : EndsOnce ts) (hat : c.atEnd = true) : c.position + 1 = ts.length := by
  have hahead := h.ahead
  obtain ⟨past, hrest, hc⟩ := h.endsOnce hend
  obtain ⟨e, he⟩ := Grammar.endsOnce_atEnd hrest (hc ▸ hat)
  rwa [he, List.length_singleton] at hahead

theorem EndsOnce.at_start (hend : EndsOnce ts) : (Cursor.ofList ts).At ts :=
  ⟨[], ts, rfl, fun hnil => not_endsOnce_nil (hnil ▸ hend), rfl⟩

/-- A step goes to the next token, unless the current one is the last. -/
theorem Cursor.At.advance (h : c.At ts) (hend : EndsOnce ts) :
    c.advance.At ts ∧ c.advance.position = min (c.position + 1) (ts.length - 1) := by
  have hahead := h.ahead
  obtain ⟨past, rest, rfl, hne, rfl⟩ := id h
  obtain ⟨t, us, rfl⟩ := List.exists_cons_of_ne_nil hne
  simp only [facing, List.length_cons] at hahead
  rcases endsOnce_cons.mp (endsOnce_append.mp hend).2 with ⟨ht, rfl⟩ | ⟨ht, hus⟩
  · have hstay : (facing past [t]).advance = facing past [t] := by
      rw [Cursor.advance, Cursor.atEnd_facing, ht]
      exact if_pos rfl
    rw [hstay]
    refine ⟨h, ?_⟩
    rw [List.length_nil] at hahead
    simp only [facing]
    omega
  · have hne : us ≠ [] := fun hnil => not_endsOnce_nil (hnil ▸ hus)
    have hpos := List.length_pos_of_ne_nil hne
    rw [Cursor.advance_facing ht]
    refine ⟨⟨t :: past, us, by simp, hne, rfl⟩, ?_⟩
    simp only [facing, Cursor.position, List.length_cons] at hahead ⊢
    omega

/-- So steps go from token to token, and stay at the last. -/
theorem EndsOnce.advance_iterate (hend : EndsOnce ts) (k : Nat) :
    (Cursor.advance^[k] (.ofList ts)).At ts ∧ (Cursor.advance^[k] (.ofList ts)).position = min k (ts.length - 1) := by
  induction k with
  | zero => exact ⟨hend.at_start, by simp [Cursor.ofList, Cursor.position]⟩
  | succ k ih =>
    obtain ⟨hat, hpos⟩ := ih
    rw [Function.iterate_succ_apply']
    obtain ⟨hnext, hmoved⟩ := hat.advance hend
    exact ⟨hnext, by omega⟩

end

namespace Grammar

/-- If something was read, the cursor is at a later place of the list. -/
def Forward (ts : List Token) (c : Cursor) (r : Parsed (Node × Cursor)) : Prop :=
  ∀ tree c', r = .ok (tree, c') → c'.At ts ∧ c.position < c'.position

/-! ## Levels of calls -/

/-- On up to `L` tokens the parsers come to the same. -/
def SameUpTo (L : Nat) (parser parser' : Cursor → Parsed (Node × Cursor)) : Prop :=
  ∀ past ts, EndsOnce ts → ts.length ≤ L → parser (facing past ts) = parser' (facing past ts)

structure AgreeUpTo (L : Nat) (g g' : Grammar) : Prop where
  expression : ∀ inBody, SameUpTo L (g.expression inBody) (g'.expression inBody)
  exponent : ∀ inBody, SameUpTo L (g.exponent inBody) (g'.exponent inBody)
  unary : ∀ inBody, SameUpTo L (g.unary inBody) (g'.unary inBody)
  primary : ∀ inBody, SameUpTo L (g.primary inBody) (g'.primary inBody)
  statement : ∀ inBody, SameUpTo L (g.statement inBody) (g'.statement inBody)

/-- A grammar made by the rules `L` levels deep around any grammar, each level for one token more than
    the one inside it. -/
inductive Levels : Nat → Grammar → Prop
  | innermost (g : Grammar) : Levels 0 g
  | around {L n : Nat} {g g' : Grammar} (inner : Levels L g) (room : L ≤ n) (rules : AgreeUpTo (L + 1) g' (g.next n)) :
      Levels (L + 1) g'

theorem levels_ofDepth {L n : Nat} (h : L ≤ n) : Levels L (ofDepth n) := by
  induction L generalizing n with
  | zero => exact .innermost _
  | succ L ih =>
    obtain ⟨k, rfl⟩ : ∃ k, n = k + 1 := ⟨n - 1, by omega⟩
    have hk := Nat.le_of_succ_le_succ h
    exact .around (ih hk) hk (by constructor <;> exact fun _ _ _ _ _ => rfl)

section
variable {L n : Nat} {g : Grammar} {parser parser' parser'' : Cursor → Parsed (Node × Cursor)}

theorem InStepUpTo.of_same {d : Nat} (h : InStepUpTo L d parser parser') (hsame : SameUpTo L parser'' parser') :
    InStepUpTo L d parser parser'' := by
  intro past ts he hlen
  rw [hsame past ts he hlen]
  exact h past ts he hlen

/-- Whatever the grammar inside, it makes no difference to as many tokens as there are levels. -/
theorem Levels.inStep (h : Levels L g) (hn : L ≤ n) : ParsersInStep L (ofDepth n) g := by
  induction h generalizing n with
  | innermost g => constructor <;> exact fun _ => inStepUpTo_zero
  | around inner room rules ih =>
    obtain ⟨k, rfl⟩ : ∃ k, n = k + 1 := ⟨n - 1, by omega⟩
    have hk := Nat.le_of_succ_le_succ hn
    have hnext := next_inStep hk room (ih hk)
    exact {
      expression := fun inBody => (hnext.expression inBody).of_same (rules.expression inBody)
      exponent := fun inBody => (hnext.exponent inBody).of_same (rules.exponent inBody)
      unary := fun inBody => (hnext.unary inBody).of_same (rules.unary inBody)
      primary := fun inBody => (hnext.primary inBody).of_same (rules.primary inBody)
      statement := fun inBody => (hnext.statement inBody).of_same (rules.statement inBody) }

theorem InStepUpTo.same {d : Nat} (h : InStepUpTo L d parser parser') (h' : InStepUpTo L d parser parser'') :
    SameUpTo L parser' parser'' :=
  fun past ts he hlen => (h past ts he hlen).1.trans (h' past ts he hlen).1.symm

/-- Levels around anything come to the same, on as many tokens as there are levels. -/
theorem Levels.agree {g' : Grammar} (h : Levels L g) (h' : Levels L g') : AgreeUpTo L g g' :=
  have hg := h.inStep (Nat.le_refl L)
  have hg' := h'.inStep (Nat.le_refl L)
  { expression := fun inBody => (hg.expression inBody).same (hg'.expression inBody)
    exponent := fun inBody => (hg.exponent inBody).same (hg'.exponent inBody)
    unary := fun inBody => (hg.unary inBody).same (hg'.unary inBody)
    primary := fun inBody => (hg.primary inBody).same (hg'.primary inBody)
    statement := fun inBody => (hg.statement inBody).same (hg'.statement inBody) }

/-- The grammar whose calls nest as deep as they have tokens ahead. -/
def unbounded : Grammar where
  expression inBody c := (ofDepth c.rest.length).expression inBody c
  exponent inBody c := (ofDepth c.rest.length).exponent inBody c
  unary inBody c := (ofDepth c.rest.length).unary inBody c
  primary inBody c := (ofDepth c.rest.length).primary inBody c
  statement inBody c := (ofDepth c.rest.length).statement inBody c

theorem levels_unbounded (L : Nat) : Levels L unbounded := by
  cases L with
  | zero => exact .innermost _
  | succ L =>
    have hdepth {m : Nat} (hm : m ≤ L + 1) : AgreeUpTo m (ofDepth m) ((ofDepth L).next L) :=
      (levels_ofDepth (Nat.le_refl m)).agree (levels_ofDepth (n := L + 1) hm)
    exact .around (levels_ofDepth (Nat.le_refl L)) (Nat.le_refl L) {
      expression := fun inBody past ts he hlen => (hdepth hlen).expression inBody past ts he (Nat.le_refl _)
      exponent := fun inBody past ts he hlen => (hdepth hlen).exponent inBody past ts he (Nat.le_refl _)
      unary := fun inBody past ts he hlen => (hdepth hlen).unary inBody past ts he (Nat.le_refl _)
      primary := fun inBody past ts he hlen => (hdepth hlen).primary inBody past ts he (Nat.le_refl _)
      statement := fun inBody past ts he hlen => (hdepth hlen).statement inBody past ts he (Nat.le_refl _) }

/-- It is made by the rules around itself, so the calls of the grammar need no bounds. -/
theorem unbounded_rules (h : L ≤ n) : AgreeUpTo (L + 1) unbounded (unbounded.next n) :=
  (levels_unbounded (L + 1)).agree
    (.around (levels_unbounded L) h (by constructor <;> exact fun _ _ _ _ _ => rfl))

variable {ts : List Token} {c : Cursor}

theorem InStepUpTo.forward (h : InStepUpTo L 1 parser parser') (hend : EndsOnce ts) (hat : c.At ts)
    (hlen : c.rest.length ≤ L) : parser' c = parser c ∧ Forward ts c (parser c) := by
  obtain ⟨past, rest, rfl, hne, rfl⟩ := hat
  obtain ⟨t, us, rfl⟩ := List.exists_cons_of_ne_nil hne
  obtain ⟨hsame, hforward⟩ := h past _ (endsOnce_append.mp hend).2 hlen
  refine ⟨hsame, fun tree c' hread => ?_⟩
  obtain ⟨used, rest', hused, hpos, hrest, rfl⟩ := hforward tree c' hread
  refine ⟨⟨used.reverse ++ past, rest', by simp [hused], fun hnil => not_endsOnce_nil (hnil ▸ hrest), rfl⟩, ?_⟩
  simp only [facing, Cursor.position, List.length_append, List.length_reverse]
  omega

theorem Levels.statement_forward (h : Levels c.rest.length g) (inBody : Bool) (hend : EndsOnce ts) (hat : c.At ts) :
    g.statement inBody c = unbounded.statement inBody c ∧ Forward ts c (unbounded.statement inBody c) :=
  ((h.inStep (Nat.le_refl _)).statement inBody).forward hend hat (Nat.le_refl _)

theorem Levels.expression_forward (h : Levels c.rest.length g) (inBody : Bool) (hend : EndsOnce ts) (hat : c.At ts) :
    g.expression inBody c = unbounded.expression inBody c ∧ Forward ts c (unbounded.expression inBody c) :=
  ((h.inStep (Nat.le_refl _)).expression inBody).forward hend hat (Nat.le_refl _)

/-! ## Whole programs -/

theorem Levels.programStatements_eq (h : Levels ts.length g) (hn : ts.length ≤ n) (hend : EndsOnce ts) :
    programStatements (g.statement false) n (.ofList ts) = programBody ts.length (.ofList ts) ∧
      Advances 0 [] ts (programBody ts.length (.ofList ts)) := by
  have hstatement := (h.inStep (Nat.le_refl ts.length)).statement false
  exact inStep_programStatements (Nat.le_refl _) hn hstatement [] ts hend (Nat.le_refl _)

/-- The loop over the statements ends at the end of input only. -/
theorem atEnd_of_programBody {ss : List Node} (hend : EndsOnce ts) (h : programBody ts.length (.ofList ts) = .ok (ss, c)) :
    c.At ts ∧ c.atEnd = true := by
  have hn : ts.length ≤ max ts.length (ss.length + 1) := Nat.le_max_left _ _
  obtain ⟨hsame, hread⟩ := (levels_ofDepth (Nat.le_refl ts.length)).programStatements_eq hn hend
  obtain ⟨used, rest, hts, -, hrest, hc⟩ := hread ss c h
  refine ⟨⟨used.reverse, rest, by simpa using hts, fun hnil => not_endsOnce_nil (hnil ▸ hrest), by simpa using hc⟩, ?_⟩
  rw [h] at hsame
  exact atEnd_of_programStatements hsame (Nat.lt_of_succ_le (Nat.le_max_right _ _))

end

end Grammar

/-- How a list is parsed: in steps that never leave it, by calls that are over after as many levels as
    there are tokens ahead and go forward if they read something, and up to its `eof`. -/
structure Progresses (ts : List Token) : Prop where
  steps : ∀ k, (Cursor.advance^[k] (.ofList ts)).At ts ∧ (Cursor.advance^[k] (.ofList ts)).position = min k (ts.length - 1)
  statement : ∀ c : Cursor, c.At ts → ∀ inBody, Grammar.Forward ts c (Grammar.unbounded.statement inBody c) ∧
    ∀ g, Grammar.Levels c.rest.length g → g.statement inBody c = Grammar.unbounded.statement inBody c
  expression : ∀ c : Cursor, c.At ts → ∀ inBody, Grammar.Forward ts c (Grammar.unbounded.expression inBody c) ∧
    ∀ g, Grammar.Levels c.rest.length g → g.expression inBody c = Grammar.unbounded.expression inBody c
  program : ∀ g n, Grammar.Levels ts.length g → ts.length ≤ n →
    Grammar.programStatements (g.statement false) n (.ofList ts) = Grammar.programBody ts.length (.ofList ts)
  atEof : ∀ tree c, Grammar.program ts.length (.ofList ts) = .ok (tree, c) →
    parseTokens ts = .ok tree ∧ c.At ts ∧ c.atEnd = true ∧ c.position + 1 = ts.length

/-- A list that ends in its only `eof` is parsed to an end, forward and whole. -/
theorem parseTokens_progress {ts : List Token} (hend : EndsOnce ts) : Progresses ts where
  steps := hend.advance_iterate
  statement c hat inBody :=
    ⟨((Grammar.levels_unbounded _).statement_forward inBody hend hat).2,
      fun _ hg => (hg.statement_forward inBody hend hat).1⟩
  expression c hat inBody :=
    ⟨((Grammar.levels_unbounded _).expression_forward inBody hend hat).2,
      fun _ hg => (hg.expression_forward inBody hend hat).1⟩
  program g n hg hn := (hg.programStatements_eq hn hend).1
  atEof tree c h := by
    have hparse : parseTokens ts = .ok tree := by
      rw [parseTokens, h]
      rfl
    rw [Grammar.program, ← Grammar.programBody] at h
    cases hbody : Grammar.programBody ts.length (.ofList ts) with
    | error e =>
      rw [hbody] at h
      cases h
    | ok r =>
      obtain ⟨ss, c'⟩ := r
      rw [hbody] at h
      cases h
      obtain ⟨hat, hatEnd⟩ := Grammar.atEnd_of_programBody hend hbody
      exact ⟨hparse, hat, hatEnd, hat.last hend hatEnd⟩

/-- The program `do if (a) b; else c; while (d); e = []`, whose first statement goes on behind semicolons. -/
theorem parseTokens_progress_do :
    let ts : List Token := [.keyword .doKw, .keyword .ifKw, .punct .lparen, .ident "a", .punct .rparen, .ident "b",
      .punct .semicolon, .keyword .elseKw, .ident "c", .punct .semicolon, .keyword .whileKw, .punct .lparen, .ident "d",
      .punct .rparen, .punct .semicolon, .ident "e", .punct .eq, .punct .lbracket, .punct .rbracket, .eof].map
        fun k => ⟨k, .none⟩
    EndsOnce ts ∧ (parseTokens ts).isOk = true ∧ Progresses ts := by
  intro ts
  have hend : EndsOnce ts := ⟨ts.dropLast, ⟨.eof, .none⟩, rfl, rfl, by simp [ts]⟩
  exact ⟨hend, by decide +kernel, parseTokens_progress hend⟩

end Treewalk
