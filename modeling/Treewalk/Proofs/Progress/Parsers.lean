/-
  Treewalk.Proofs.Progress.Parsers — every parsing function goes forward, and the same way under any
  bounds.

  One lemma for each parsing function, about the function over two grammars that go in step
  (`ParsersInStep`) and under two bounds. Whatever a construct reads by the grammar further in stands
  behind a token of its own, and so does each round of its loops behind the first: on `L + 1` tokens,
  what `L` tokens need is enough.

  Proved: levels around two grammars that go in step for `L` tokens do so for `L + 1` (`next_inStep`).
-/

import Treewalk.Proofs.Progress.Laws
import Treewalk.Proofs.Prediction.Expressions

namespace Treewalk

open Cursor (facing)

namespace Grammar

/-- The parsers of two levels go in step on up to `L` tokens, and what they read has one token at
    least. -/
structure ParsersInStep (L : Nat) (g g' : Grammar) : Prop where
  expression : ∀ inBody, InStepUpTo L 1 (g.expression inBody) (g'.expression inBody)
  exponent : ∀ inBody, InStepUpTo L 1 (g.exponent inBody) (g'.exponent inBody)
  unary : ∀ inBody, InStepUpTo L 1 (g.unary inBody) (g'.unary inBody)
  primary : ∀ inBody, InStepUpTo L 1 (g.primary inBody) (g'.primary inBody)
  statement : ∀ inBody, InStepUpTo L 1 (g.statement inBody) (g'.statement inBody)

/-! ## Loops -/

section
variable {L n n' : Nat} (hn : L ≤ n) (hn' : L ≤ n')
include hn hn'

/-- Items with commas between them. -/
theorem inStep_separated {α : Type} {isOver : Cursor → Bool} {item item' : Cursor → Parsed (α × Cursor)}
    {list list' : Nat → Cursor → Parsed (List α × Cursor)}
    (hlist : ∀ n c, list (n + 1) c =
      if isOver c then .ok ([], c)
      else do
        let (a, c) ← item c
        match c.eats? .comma with
        | none => return ([a], c)
        | some c =>
          let (as, c) ← list n c
          return (a :: as, c))
    (hlist' : ∀ n c, list' (n + 1) c =
      if isOver c then .ok ([], c)
      else do
        let (a, c) ← item' c
        match c.eats? .comma with
        | none => return ([a], c)
        | some c =>
          let (as, c) ← list' n c
          return (a :: as, c))
    (h : InStepUpTo L 1 item item') : InStepUpTo L 0 (list n) (list' n') := by
  refine inStep_loop (fun n (_ : Unit) => list n) (fun n _ => list' n) ?_ hn hn' ()
  intro k k' m hm hmore _ past ts he
  simp only [hlist, hlist']
  split
  · exact inStep_ok he
  · refine (((h past ts he).shorten hm).bind_strict fun a past' rest hrest => ?_).weaken
    refine inStep_eats (Nat.le_succ m) hrest (inStep_ok hrest) fun past₂ rest₂ h₂ => ?_
    exact (hmore () past₂ rest₂ h₂).bind fun as _ _ he => inStep_ok he

/-- Items one behind the other. -/
theorem inStep_sequence {α : Type} {isOver : Cursor → Bool} {item item' : Cursor → Parsed (α × Cursor)}
    {list list' : Nat → Cursor → Parsed (List α × Cursor)}
    (hlist : ∀ n c, list (n + 1) c =
      if isOver c then .ok ([], c)
      else do
        let (a, c) ← item c
        let (as, c) ← list n c
        return (a :: as, c))
    (hlist' : ∀ n c, list' (n + 1) c =
      if isOver c then .ok ([], c)
      else do
        let (a, c) ← item' c
        let (as, c) ← list' n c
        return (a :: as, c))
    (h : InStepUpTo L 1 item item') : InStepUpTo L 0 (list n) (list' n') := by
  refine inStep_loop (fun n (_ : Unit) => list n) (fun n _ => list' n) ?_ hn hn' ()
  intro k k' m hm hmore _ past ts he
  simp only [hlist, hlist']
  split
  · exact inStep_ok he
  · refine (((h past ts he).shorten hm).bind_strict fun a past' rest hrest => ?_).weaken
    exact (hmore () past' rest hrest).bind fun as _ _ he => inStep_ok he

theorem inStep_commaList {item item' : Cursor → Parsed (Node × Cursor)} (h : InStepUpTo L 1 item item') (close : Punct) :
    InStepUpTo L 0 (commaList item close n) (commaList item' close n') :=
  inStep_separated hn hn' (fun _ _ => rfl) (fun _ _ => rfl) h

theorem inStep_params : InStepUpTo L 0 (params n) (params n') :=
  inStep_separated hn hn' (fun _ _ => rfl) (fun _ _ => rfl) fun past ts he => inStep_within (inStep_expectIdent past ts he)

section
variable {statement statement' : Cursor → Parsed (Node × Cursor)} (h : InStepUpTo L 1 statement statement')
include h

theorem inStep_statements : InStepUpTo L 0 (statements statement n) (statements statement' n') :=
  inStep_sequence hn hn' (fun _ _ => rfl) (fun _ _ => rfl) h

theorem inStep_programStatements : InStepUpTo L 0 (programStatements statement n) (programStatements statement' n') :=
  inStep_sequence hn hn' (fun _ _ => rfl) (fun _ _ => rfl) h

end

theorem inStep_dottedNames : InStepUpTo L 0 (dottedNames n) (dottedNames n') := by
  refine inStep_loop (fun n (_ : Unit) => dottedNames n) (fun n _ => dottedNames n) ?_ hn hn' ()
  intro k k' m hm hmore _ past ts he
  unfold dottedNames
  refine inStep_eats (Nat.le_refl _) he (inStep_ok he) fun past' rest hrest => ?_
  exact (inStep_propertyName past' rest hrest).weaken.bind fun _ past₂ rest₂ h₂ => hmore () past₂ rest₂ h₂

/-! ## Blocks and functions -/

theorem inStep_block {statement statement' : Cursor → Parsed (Node × Cursor)} (h : InStepUpTo L 1 statement statement') :
    InStepUpTo (L + 1) 1 (block statement n) (block statement' n') := by
  intro past ts he
  unfold block
  refine (inStep_expect .lbrace past ts he).bind_strict fun opened past₁ rest₁ h₁ => ?_
  refine (inStep_statements hn hn' h past₁ rest₁ h₁).bind fun body past₂ rest₂ h₂ => ?_
  exact (inStep_within (inStep_expectClosing .rbrace .lbrace opened past₂ rest₂ h₂)).weaken.bind fun _ _ _ he => inStep_ok he

section
variable {g g' : Grammar} (hg : ParsersInStep L g g') (inBody : Bool)
include hg

theorem inStep_paramsAndBody : InStepUpTo (L + 1) 1 (paramsAndBody g n) (paramsAndBody g' n') := by
  intro past ts he
  unfold paramsAndBody
  refine (inStep_expect .lparen past ts he).bind_strict fun opened past₁ rest₁ h₁ => ?_
  refine (inStep_params hn hn' past₁ rest₁ h₁).bind fun ps past₂ rest₂ h₂ => ?_
  refine (inStep_within (inStep_expectClosing .rparen .lparen opened past₂ rest₂ h₂)).weaken.bind fun _ past₃ rest₃ h₃ => ?_
  exact (inStep_block hn hn' (hg.statement true) past₃ rest₃ h₃).relax.bind fun body _ _ he => inStep_ok he

/-! ## Primary expressions -/

theorem inStep_arguments : InStepUpTo (L + 1) 1 (arguments g inBody n) (arguments g' inBody n') := by
  intro past ts he
  unfold arguments
  refine (inStep_expect .lparen past ts he).bind_strict fun opened past₁ rest₁ h₁ => ?_
  refine (inStep_commaList hn hn' (hg.expression inBody) .rparen past₁ rest₁ h₁).bind fun es past₂ rest₂ h₂ => ?_
  exact (inStep_expectClosing .rparen .lparen opened past₂ rest₂ h₂).weaken.bind fun _ _ _ he => inStep_ok he

section
variable {past ts : List Token} (he : EndsOnce ts)
include he

omit hn hn' in
theorem inStep_parenthesized (hk : (facing past ts).kind = .punct .lparen) :
    InStep (L + 1) 1 past ts (parenthesized g inBody (facing past ts)) (parenthesized g' inBody (facing past ts)) := by
  obtain ⟨s, us, rfl, hus, hc⟩ := facing_cons_of_kind he hk nofun
  unfold parenthesized
  rw [hc]
  refine inStep_cons ?_
  refine (inStep_within (hg.expression inBody _ us hus)).weaken.bind fun e past' rest hrest => ?_
  exact (inStep_within (inStep_expectClosing .rparen .lparen s past' rest hrest)).weaken.bind fun _ _ _ he => inStep_ok he

theorem inStep_arrayLiteral (hk : (facing past ts).kind = .punct .lbracket) :
    InStep (L + 1) 1 past ts (arrayLiteral g inBody n (facing past ts)) (arrayLiteral g' inBody n' (facing past ts)) := by
  obtain ⟨s, us, rfl, hus, hc⟩ := facing_cons_of_kind he hk nofun
  unfold arrayLiteral
  rw [hc]
  refine inStep_cons ?_
  refine (inStep_within (inStep_commaList hn hn' (hg.expression inBody) .rbracket _ us hus)).bind fun es past' rest hrest => ?_
  exact (inStep_within (inStep_expectClosing .rbracket .lbracket s past' rest hrest)).weaken.bind fun _ _ _ he => inStep_ok he

theorem inStep_functionExpression (hk : (facing past ts).kind = .keyword .functionKw) :
    InStep (L + 1) 1 past ts (functionExpression g n (facing past ts)) (functionExpression g' n' (facing past ts)) := by
  obtain ⟨s, us, rfl, hus, hc⟩ := facing_cons_of_kind he hk nofun
  unfold functionExpression
  rw [hc]
  refine inStep_cons ?_
  dsimp only
  split
  · rename_i hcheck
    obtain ⟨name, hname⟩ := Cursor.check_ident.mp hcheck
    obtain ⟨s', us', rfl, hus', hc'⟩ := facing_cons_of_kind hus hname nofun
    rw [hc']
    refine InStep.relax (inStep_cons ?_)
    exact (inStep_paramsAndBody hn hn' hg _ us' hus').relax.bind fun _ _ _ he => inStep_ok he
  · exact (inStep_paramsAndBody hn hn' hg _ us hus).relax.bind fun _ _ _ he => inStep_ok he

theorem inStep_newExpression (hk : (facing past ts).kind = .keyword .newKw) :
    InStep (L + 1) 1 past ts (newExpression g inBody n (facing past ts)) (newExpression g' inBody n' (facing past ts)) := by
  obtain ⟨s, us, rfl, hus, hc⟩ := facing_cons_of_kind he hk nofun
  unfold newExpression
  rw [hc]
  refine inStep_cons ((hg.primary inBody _ us hus).weaken.bind fun _ past₁ rest₁ h₁ => ?_)
  refine (inStep_dottedNames hn hn' past₁ rest₁ h₁).bind fun _ past₂ rest₂ h₂ => ?_
  dsimp only
  split
  · exact (inStep_arguments hn hn' hg inBody past₂ rest₂ h₂).relax.bind fun _ _ _ he => inStep_ok he
  · exact inStep_ok h₂

end

theorem inStep_primaryAt : InStepUpTo (L + 1) 1 (primaryAt g inBody n) (primaryAt g' inBody n') := by
  intro past ts he
  unfold primaryAt
  split
  all_goals rename_i hk
  · exact inStep_token he hk nofun
  · exact inStep_token he hk nofun
  · exact inStep_token he hk nofun
  · exact inStep_token he hk nofun
  · exact inStep_token he hk nofun
  · exact inStep_token he hk nofun
  · exact inStep_token he hk nofun
  · exact inStep_parenthesized hg inBody he hk
  · exact inStep_arrayLiteral hn hn' hg inBody he hk
  · exact inStep_skipObject hn hn' he hk
  · exact inStep_functionExpression hn hn' hg he hk
  · exact inStep_newExpression hn hn' hg inBody he hk
  · exact inStep_fail

/-! ## Member access and calls -/

section
variable {past ts : List Token} (he : EndsOnce ts)
include he

omit hn hn' hg in
theorem inStep_dotMember (object : Node) (hk : (facing past ts).kind = .punct .dot) :
    InStep (L + 1) 1 past ts (dotMember object (facing past ts)) (dotMember object (facing past ts)) := by
  obtain ⟨s, us, rfl, hus, hc⟩ := facing_cons_of_kind he hk nofun
  unfold dotMember
  rw [hc]
  refine inStep_cons ?_
  exact (inStep_within (inStep_propertyName _ us hus)).weaken.bind fun _ _ _ he => inStep_ok he

omit hn hn' in
theorem inStep_computedMember (object : Node) (hk : (facing past ts).kind = .punct .lbracket) :
    InStep (L + 1) 1 past ts (computedMember g inBody object (facing past ts))
      (computedMember g' inBody object (facing past ts)) := by
  obtain ⟨s, us, rfl, hus, hc⟩ := facing_cons_of_kind he hk nofun
  unfold computedMember
  rw [hc]
  refine inStep_cons ?_
  refine (inStep_within (hg.expression inBody _ us hus)).weaken.bind fun p past' rest hrest => ?_
  exact (inStep_within (inStep_expectClosing .rbracket .lbracket s past' rest hrest)).weaken.bind fun _ _ _ he =>
    inStep_ok he

theorem inStep_callOf (callee : Node) :
    InStep (L + 1) 1 past ts (callOf g inBody n callee (facing past ts)) (callOf g' inBody n' callee (facing past ts)) := by
  unfold callOf
  exact (inStep_within (inStep_arguments hn hn' hg inBody past ts he)).bind fun _ _ _ he => inStep_ok he

end

theorem inStep_suffixes {k k' : Nat} (hk : L ≤ k) (hk' : L ≤ k') (e : Node) :
    InStepUpTo L 0 (suffixes g inBody n k e) (suffixes g' inBody n' k' e) := by
  refine inStep_loop (suffixes g inBody n) (suffixes g' inBody n') ?_ hk hk' e
  intro k k' m hm hmore e past ts he
  have hround : m + 1 ≤ L + 1 := Nat.le_succ_of_le hm
  unfold suffixes
  split
  all_goals rename_i hkind
  · refine (((inStep_dotMember he e hkind).shorten hround).bind_strict fun e' past' rest hrest => ?_).weaken
    exact hmore e' past' rest hrest
  · refine (((inStep_computedMember hg inBody he e hkind).shorten hround).bind_strict fun e' past' rest hrest => ?_).weaken
    exact hmore e' past' rest hrest
  · refine (((inStep_callOf hn hn' hg inBody he e).shorten hround).bind_strict fun e' past' rest hrest => ?_).weaken
    exact hmore e' past' rest hrest
  · exact inStep_ok he

theorem inStep_postfixAt : InStepUpTo (L + 1) 1 (postfixAt g inBody n) (postfixAt g' inBody n') := by
  intro past ts he
  unfold postfixAt
  refine (inStep_primaryAt hn hn' hg inBody past ts he).bind_strict fun e past' rest hrest => ?_
  exact inStep_suffixes hn hn' hg inBody hn hn' e past' rest hrest

/-! ## Operators -/

theorem inStep_unaryAt : InStepUpTo (L + 1) 1 (unaryAt g inBody n) (unaryAt g' inBody n') := by
  intro past ts he
  unfold unaryAt
  split
  · rename_i hsign
    obtain ⟨k, hk⟩ : ∃ k, (facing past ts).kind = k := ⟨_, rfl⟩
    have hlevel : isLevel k = true := hk ▸ isLevel_sign hsign
    obtain ⟨s, us, rfl, hus, hc⟩ := facing_cons_of_kind he hk (ne_eof_of_isLevel hlevel)
    dsimp only
    rw [hc]
    exact inStep_cons ((hg.unary inBody _ us hus).weaken.bind fun _ _ _ he => inStep_ok he)
  · exact inStep_postfixAt hn hn' hg inBody past ts he

theorem inStep_exponentAt : InStepUpTo (L + 1) 1 (exponentAt g inBody n) (exponentAt g' inBody n') := by
  intro past ts he
  unfold exponentAt
  refine (inStep_unaryAt hn hn' hg inBody past ts he).bind_strict fun base past' rest hrest => ?_
  refine inStep_eats (Nat.le_succ L) hrest (inStep_ok hrest) fun past₂ rest₂ h₂ => ?_
  exact (hg.exponent inBody past₂ rest₂ h₂).weaken.bind fun _ _ _ he => inStep_ok he

omit hg in
theorem inStep_chain {joins : Joins} (hj : joins.Covering) {operand operand' : Cursor → Parsed (Node × Cursor)}
    (ho : InStepUpTo (L + 1) 1 operand operand') :
    InStepUpTo (L + 1) 1 (chain joins operand n) (chain joins operand' n') := by
  intro past ts he
  unfold chain
  refine (ho past ts he).bind_strict fun left past' rest hrest => ?_
  refine inStep_loop (chainFrom joins operand) (chainFrom joins operand') ?_ hn hn' left past' rest hrest
  intro k k' m hm hmore left past ts he
  unfold chainFrom
  split
  · exact inStep_ok he
  · rename_i join hjoin
    obtain ⟨p, htag, -⟩ := hj hjoin
    obtain ⟨s, us, rfl, hus, hc⟩ := facing_cons_of_kind he (Cursor.kind_of_tag htag) nofun
    rw [hc]
    refine InStep.weaken (inStep_cons ?_)
    refine ((ho _ us hus).shorten (Nat.le_succ_of_le hm.le)).weaken.bind fun right past₂ rest₂ h₂ => ?_
    exact hmore _ past₂ rest₂ h₂

theorem inStep_productAt : InStepUpTo (L + 1) 1 (productAt g inBody n) (productAt g' inBody n') :=
  inStep_chain hn hn' productJoins_covering (inStep_exponentAt hn hn' hg inBody)

theorem inStep_sumAt : InStepUpTo (L + 1) 1 (sumAt g inBody n) (sumAt g' inBody n') :=
  inStep_chain hn hn' sumJoins_covering (inStep_productAt hn hn' hg inBody)

theorem inStep_relationAt : InStepUpTo (L + 1) 1 (relationAt g inBody n) (relationAt g' inBody n') :=
  inStep_chain hn hn' relationJoins_covering (inStep_sumAt hn hn' hg inBody)

theorem inStep_equalityAt : InStepUpTo (L + 1) 1 (equalityAt g inBody n) (equalityAt g' inBody n') :=
  inStep_chain hn hn' equalityJoins_covering (inStep_relationAt hn hn' hg inBody)

theorem inStep_andAt : InStepUpTo (L + 1) 1 (andAt g inBody n) (andAt g' inBody n') :=
  inStep_chain hn hn' andJoins_covering (inStep_equalityAt hn hn' hg inBody)

theorem inStep_orAt : InStepUpTo (L + 1) 1 (orAt g inBody n) (orAt g' inBody n') :=
  inStep_chain hn hn' orJoins_covering (inStep_andAt hn hn' hg inBody)

theorem inStep_conditionalAt : InStepUpTo (L + 1) 1 (conditionalAt g inBody n) (conditionalAt g' inBody n') := by
  intro past ts he
  unfold conditionalAt
  refine (inStep_orAt hn hn' hg inBody past ts he).bind_strict fun test past₁ rest₁ h₁ => ?_
  refine inStep_eats (Nat.le_succ L) h₁ (inStep_ok h₁) fun past₂ rest₂ h₂ => ?_
  refine (hg.expression inBody past₂ rest₂ h₂).weaken.bind fun _ past₃ rest₃ h₃ => ?_
  refine (inStep_expect .colon past₃ rest₃ h₃).weaken.bind fun _ past₄ rest₄ h₄ => ?_
  exact (hg.expression inBody past₄ rest₄ h₄).weaken.bind fun _ _ _ he => inStep_ok he

theorem inStep_expressionAt : InStepUpTo (L + 1) 1 (expressionAt g inBody n) (expressionAt g' inBody n') := by
  intro past ts he
  unfold expressionAt
  refine (inStep_conditionalAt hn hn' hg inBody past ts he).bind_strict fun left past' rest hrest => ?_
  refine inStep_eats (Nat.le_succ L) hrest (inStep_ok hrest) fun past₂ rest₂ h₂ => ?_
  exact (hg.expression inBody past₂ rest₂ h₂).weaken.bind fun _ _ _ he => inStep_ok he

/-! ## Statements -/

omit hn hn' in
theorem inStep_declarator : InStepUpTo (L + 1) 1 (declarator g inBody) (declarator g' inBody) := by
  intro past ts he
  unfold declarator
  refine (inStep_expectIdent past ts he).bind_strict fun id past' rest hrest => ?_
  refine inStep_eats (Nat.le_succ L) hrest (inStep_ok hrest) fun past₂ rest₂ h₂ => ?_
  exact (hg.expression inBody past₂ rest₂ h₂).weaken.bind fun _ _ _ he => inStep_ok he

theorem inStep_declarators : InStepUpTo L 0 (declarators g inBody n) (declarators g' inBody n') := by
  refine inStep_loop (fun n (_ : Unit) => declarators g inBody n) (fun n _ => declarators g' inBody n) ?_ hn hn' ()
  intro k k' m hm hmore _ past ts he
  unfold declarators
  have hround : m + 1 ≤ L + 1 := Nat.le_succ_of_le hm
  have hfirst := (inStep_declarator hg inBody past ts he).shorten hround
  refine ((inStep_within hfirst).bind_strict fun d past' rest hrest => ?_).weaken
  refine inStep_eats (Nat.le_succ m) hrest (inStep_ok hrest) fun past₂ rest₂ h₂ => ?_
  exact (hmore () past₂ rest₂ h₂).bind fun ds _ _ he => inStep_ok he

theorem inStep_expressionStatement :
    InStepUpTo (L + 1) 1 (expressionStatement g inBody n) (expressionStatement g' inBody n') := by
  intro past ts he
  unfold expressionStatement
  exact (inStep_expressionAt hn hn' hg inBody past ts he).bind fun e _ _ hrest => inStep_skip hrest

section
variable {past ts : List Token} {k : Keyword} (he : EndsOnce ts)
  (hk : (facing past ts).kind = .keyword k)
include he hk

theorem inStep_variableDeclaration (word : DeclarationWord) :
    InStep (L + 1) 1 past ts (variableDeclaration g inBody n word (facing past ts))
      (variableDeclaration g' inBody n' word (facing past ts)) := by
  obtain ⟨s, us, rfl, hus, hc⟩ := facing_cons_of_kind he hk nofun
  unfold variableDeclaration
  rw [hc]
  refine inStep_cons ?_
  exact (inStep_declarators hn hn' hg inBody _ us hus).bind fun ds _ _ hrest => inStep_skip hrest

omit hk in
theorem inStep_namedFunction :
    InStep (L + 1) 1 past ts (namedFunction g n (facing past ts)) (namedFunction g' n' (facing past ts)) := by
  unfold namedFunction
  refine (inStep_expectIdent past ts he).bind_strict fun id past' rest hrest => ?_
  exact (inStep_paramsAndBody hn hn' hg past' rest hrest).relax.bind fun _ _ _ he => inStep_ok he

theorem inStep_functionDeclaration :
    InStep (L + 1) 1 past ts (functionDeclaration g n (facing past ts)) (functionDeclaration g' n' (facing past ts)) := by
  obtain ⟨s, us, rfl, hus, hc⟩ := facing_cons_of_kind he hk nofun
  unfold functionDeclaration
  rw [hc]
  refine inStep_cons ?_
  exact (inStep_within (inStep_namedFunction hn hn' hg hus)).relax.bind fun _ _ _ he => inStep_ok he

omit hn hn' in
theorem inStep_returnStatement :
    InStep (L + 1) 1 past ts (returnStatement g inBody (facing past ts)) (returnStatement g' inBody (facing past ts)) := by
  obtain ⟨s, us, rfl, hus, hc⟩ := facing_cons_of_kind he hk nofun
  unfold returnStatement
  rw [hc]
  dsimp only
  split
  · have hargument : InStep L 0 (⟨.keyword k, s⟩ :: past) us
        (returnArgument g inBody (facing (⟨.keyword k, s⟩ :: past) us))
        (returnArgument g' inBody (facing (⟨.keyword k, s⟩ :: past) us)) := by
      unfold returnArgument
      split
      · exact inStep_ok hus
      · exact (hg.expression inBody _ us hus).weaken.bind fun _ _ _ he => inStep_ok he
    exact inStep_cons (hargument.bind fun _ _ _ hrest => inStep_skip hrest)
  · exact inStep_fail

theorem inStep_keywordStatement :
    InStep (L + 1) 1 past ts (keywordStatement g inBody n k (facing past ts))
      (keywordStatement g' inBody n' k (facing past ts)) := by
  unfold keywordStatement
  split
  · exact inStep_variableDeclaration hn hn' hg inBody he hk .var
  · exact inStep_variableDeclaration hn hn' hg inBody he hk .letWord
  · exact inStep_variableDeclaration hn hn' hg inBody he hk .const
  · exact inStep_functionDeclaration hn hn' hg he hk
  · exact inStep_returnStatement hg inBody he hk
  · split
    · rename_i kind _
      exact inStep_skipStatement hn hn' he kind hk
    · exact inStep_expressionStatement hn hn' hg inBody past ts he

end

theorem inStep_statementAt : InStepUpTo (L + 1) 1 (statementAt g inBody n) (statementAt g' inBody n') := by
  intro past ts he
  unfold statementAt
  split
  · rename_i hk
    exact inStep_keywordStatement hn hn' hg inBody he hk
  · exact inStep_block hn hn' (hg.statement inBody) past ts he
  · rename_i hk
    exact inStep_token he hk nofun
  · exact inStep_expressionStatement hn hn' hg inBody past ts he

/-! ## Levels -/

omit inBody in
theorem next_inStep : ParsersInStep (L + 1) (g.next n) (g'.next n') where
  expression inBody past ts he := by
    simp only [next, Stack.atLevel_eq]
    exact inStep_expressionAt hn hn' hg inBody past ts he
  exponent inBody past ts he := by
    simp only [next, Stack.atLevel_eq]
    exact inStep_exponentAt hn hn' hg inBody past ts he
  unary inBody past ts he := by
    simp only [next, Stack.atLevel_eq]
    exact inStep_unaryAt hn hn' hg inBody past ts he
  primary inBody past ts he := by
    simp only [next, Stack.atLevel_eq]
    exact inStep_primaryAt hn hn' hg inBody past ts he
  statement inBody past ts he := by
    simp only [next, Stack.atLevel_eq]
    exact inStep_statementAt hn hn' hg inBody past ts he

end

end

end Grammar

end Treewalk
