/-
  Treewalk.Proofs.Brackets.Parsers — every parsing function keeps the brackets.

  One lemma for each parsing function, from what the grammar one level further in does
  (`Grammar.KeepsBrackets`). A level is good for as many tokens as it may nest: whatever a construct
  reads by the level further in stands behind a token of its own. An operand further in starts behind a
  token that an operand follows, so that a brace there begins an object literal.

  Proved: every level keeps the brackets of as many tokens as it may nest (`ofDepth_keepsBrackets`).
-/

import Treewalk.Proofs.Brackets.Laws

namespace Treewalk

open Cursor (facing)

namespace Grammar

/-- The parsers of a level keep the brackets of up to `L` tokens. -/
structure KeepsBrackets (D : List Token → Prop) (g : Grammar) (L : Nat) : Prop where
  /-- Where an operand is awaited, an object literal may stand. -/
  allowed : ∀ {past}, AwaitsOperand past → D past
  expression : ∀ inBody, KeepsOperands D L (g.expression inBody)
  exponent : ∀ inBody, KeepsOperands D L (g.exponent inBody)
  unary : ∀ inBody, KeepsOperands D L (g.unary inBody)
  primary : ∀ inBody, KeepsOperands D L (g.primary inBody)
  statement : ∀ inBody, KeepsUpTo D L (g.statement inBody)

theorem KeepsBrackets.behind {D : List Token → Prop} {g : Grammar} {L : Nat} {t : Token} {past ts : List Token}
    (hg : g.KeepsBrackets D L) (ht : leavesOperand t.kind = true) : MayStart D (t :: past) ts :=
  fun _ => hg.allowed ⟨t, rfl, ht⟩

section
variable {D : List Token → Prop} {L : Nat}

/-! ## Single tokens -/

theorem mayStart_of_kind {past ts : List Token} {k : TokenKind} (h : (facing past ts).kind = k) (hk : k ≠ .punct .lbrace) :
    MayStart D past ts :=
  fun hbrace => absurd (h.symm.trans hbrace) hk

/-- A point and the name behind it. -/
theorem keeps_property {β : Type} {past ts : List Token} {s : Span} {f : Node × Cursor → Parsed (β × Cursor)}
    (he : EndsOnce ts) (named : Cursor → Parsed (Node × Cursor))
    (hnamed : ∀ c, (named c).mapError (·.cause) = (propertyName c).mapError (·.cause))
    (hf : ∀ name past' rest, EndsOnce rest → Keeps D L past' rest (f (name, facing past' rest))) :
    Keeps D L past (⟨.punct .dot, s⟩ :: ts) (named (facing (⟨.punct .dot, s⟩ :: past) ts) >>= f) := by
  have hname := hnamed (facing (⟨.punct .dot, s⟩ :: past) ts)
  rcases propertyName_cases he with ⟨k, name, s', us, hk, rfl, hus, hread⟩ | ⟨cause, span, hcause, hread⟩
  · rw [ok_of_mapError hname hread]
    exact (keeps_append (.property hk) (hf _ _ us hus)).mono (Nat.le_add_right _ _)
  · obtain ⟨e, hfail, he⟩ := error_of_mapError hname hread
    rw [hfail]
    intro hunclosed
    rw [he, hcause] at hunclosed
    cases hunclosed

theorem keeps_expectIdent : KeepsUpTo D L expectIdent := by
  intro past ts he
  unfold expectIdent
  split
  · rename_i name hk
    exact keeps_token rfl he hk
  · exact keeps_fail rfl

/-! ## Lists -/

/-- Items with commas between them. -/
theorem keeps_separated {α : Type} {M : List Token → List Token → Prop} {isOver : Cursor → Bool} {item : Cursor → Parsed (α × Cursor)}
    {list : Nat → Cursor → Parsed (List α × Cursor)} (hzero : ∀ c, list 0 c = .ok ([], c))
    (hlist : ∀ n c, list (n + 1) c =
      if isOver c then .ok ([], c)
      else do
        let (a, c) ← item c
        match c.eats? .comma with
        | none => return ([a], c)
        | some c =>
          let (as, c) ← list n c
          return (a :: as, c))
    (h : ∀ past ts, EndsOnce ts → M past ts → Keeps D L past ts (item (facing past ts)))
    (hcomma : ∀ s past ts, M (⟨.punct .comma, s⟩ :: past) ts) (n : Nat) {past ts : List Token} (he : EndsOnce ts)
    (hM : M past ts) : Keeps D L past ts (list n (facing past ts)) := by
  induction n generalizing past ts with
  | zero =>
    rw [hzero]
    exact keeps_ok he
  | succ n ih =>
    rw [hlist]
    split
    · exact keeps_ok he
    · refine keeps_bind (h past ts he hM) fun a past' rest hrest => ?_
      refine keeps_eats rfl (Nat.le_succ L) hrest (keeps_ok hrest) fun s rest₂ h₂ => ?_
      exact keeps_bind (ih h₂ (hcomma s past' rest₂)) fun as _ _ he => keeps_ok he

theorem keeps_params (n : Nat) : KeepsUpTo D L (params n) :=
  fun _ _ he => keeps_separated (M := fun _ _ => True) (fun _ => rfl) (fun _ _ => rfl)
    (fun past ts he _ => keeps_within (keeps_expectIdent past ts he)) (fun _ _ _ => trivial) n he trivial

/-- Items one behind the other. -/
theorem keeps_sequence {α : Type} {isOver : Cursor → Bool} {item : Cursor → Parsed (α × Cursor)}
    {list : Nat → Cursor → Parsed (List α × Cursor)} (hzero : ∀ c, list 0 c = .ok ([], c))
    (hlist : ∀ n c, list (n + 1) c =
      if isOver c then .ok ([], c)
      else do
        let (a, c) ← item c
        let (as, c) ← list n c
        return (a :: as, c))
    (h : KeepsUpTo D L item) (n : Nat) : KeepsUpTo D L (list n) := by
  induction n with
  | zero =>
    intro past ts he
    rw [hzero]
    exact keeps_ok he
  | succ n ih =>
    intro past ts he
    rw [hlist]
    split
    · exact keeps_ok he
    · refine keeps_bind (h past ts he) fun a past' rest hrest => ?_
      exact keeps_bind (ih past' rest hrest) fun as _ _ he => keeps_ok he

theorem keeps_statements {statement : Cursor → Parsed (Node × Cursor)} (h : KeepsUpTo D L statement) (n : Nat) :
    KeepsUpTo D L (statements statement n) :=
  keeps_sequence (fun _ => rfl) (fun _ _ => rfl) h n

theorem keeps_programStatements {statement : Cursor → Parsed (Node × Cursor)} (h : KeepsUpTo D L statement) (n : Nat) :
    KeepsUpTo D L (programStatements statement n) :=
  keeps_sequence (fun _ => rfl) (fun _ _ => rfl) h n

theorem keeps_dottedNames (n : Nat) : KeepsUpTo D L (dottedNames n) := by
  induction n with
  | zero => exact keeps_pure ()
  | succ n ih =>
    intro past ts he
    unfold dottedNames
    cases hc : (facing past ts).eats? .dot with
    | none => exact keeps_ok he
    | some c =>
      obtain ⟨s, us, rfl, hus, rfl⟩ := facing_eats? he hc
      exact keeps_property hus propertyName (fun _ => rfl) fun _ past' rest hrest => ih past' rest hrest

/-! ## Blocks and functions -/

theorem keeps_block {statement : Cursor → Parsed (Node × Cursor)} (h : KeepsUpTo D L statement) (n : Nat) :
    KeepsUpTo D (L + 1) (block statement n) := by
  intro past ts he
  unfold block
  refine keeps_expect he fun s us hts hus => ?_
  subst hts
  refine keeps_pair (p := .lbrace) rfl _ _ (fun _ _ => rfl) (fun _ => mapError_within _ _)
    (keeps_statements h n _ us hus) fun body _ past' rest hrest => ?_
  exact keeps_ok hrest

/-- An operand follows the tokens that join operands. -/
def Joins.Plain (joins : Joins) : Prop :=
  ∀ {t join}, joins t = some join → ∃ p, t = .punct p ∧ isPlain (.punct p) = true ∧ leavesOperand (.punct p) = true

theorem joins_plain {joins : Joins}
    (hj : joins ∈ [productJoins, sumJoins, relationJoins, equalityJoins, andJoins, orJoins]) : joins.Plain := by
  intro t join h
  simp only [List.mem_cons, List.not_mem_nil, or_false] at hj
  rcases hj with rfl | rfl | rfl | rfl | rfl | rfl
  all_goals
    simp only [productJoins, sumJoins, relationJoins, equalityJoins, andJoins, orJoins] at h
    split at h <;> first | exact ⟨_, rfl, rfl, rfl⟩ | cases h

section
variable {g : Grammar} {n : Nat} (hg : g.KeepsBrackets D n) (inBody : Bool)
include hg

theorem keeps_paramsAndBody : KeepsUpTo D (n + 1) (paramsAndBody g n) := by
  intro past ts he
  unfold paramsAndBody
  refine keeps_expect he fun s us hts hus => ?_
  subst hts
  refine keeps_pair (p := .lparen) rfl _ _ (fun _ _ => rfl) (fun _ => mapError_within _ _)
    (keeps_params n _ us hus) fun ps _ past' rest hrest => ?_
  have hblock := keeps_block (hg.statement true) n past' rest hrest
  exact keeps_bind hblock fun body _ _ he => keeps_ok he

/-! ## Primary expressions -/

theorem keeps_commaList (close : Punct) (k : Nat) {past ts : List Token} (he : EndsOnce ts) (hstart : MayStart D past ts) :
    Keeps D n past ts (commaList (g.expression inBody) close k (facing past ts)) :=
  keeps_separated (fun _ => rfl) (fun _ _ => rfl) (hg.expression inBody) (fun _ _ _ => hg.behind rfl) k he hstart

theorem keeps_arguments : KeepsUpTo D (n + 1) (arguments g inBody n) := by
  intro past ts he
  unfold arguments
  refine keeps_expect he fun s us hts hus => ?_
  subst hts
  refine keeps_pair (p := .lparen) rfl _ _ (fun _ _ => rfl) (fun _ => rfl)
    (keeps_commaList hg inBody .rparen n hus (hg.behind rfl)) fun es _ past' rest hrest => ?_
  exact keeps_ok hrest

section
variable {past ts : List Token} (he : EndsOnce ts)
include he

theorem keeps_parenthesized (hk : (facing past ts).kind = .punct .lparen) :
    Keeps D (n + 1) past ts (parenthesized g inBody (facing past ts)) := by
  obtain ⟨s, us, rfl, hus, hc⟩ := facing_cons_of_kind he hk nofun
  unfold parenthesized
  rw [hc]
  refine keeps_pair (p := .lparen) rfl _ _ (fun _ _ => rfl) (fun _ => mapError_within _ _)
    (keeps_within (hg.expression inBody _ us hus (hg.behind rfl))) fun e _ past' rest hrest => ?_
  exact keeps_ok hrest

theorem keeps_arrayLiteral (hk : (facing past ts).kind = .punct .lbracket) :
    Keeps D (n + 1) past ts (arrayLiteral g inBody n (facing past ts)) := by
  obtain ⟨s, us, rfl, hus, hc⟩ := facing_cons_of_kind he hk nofun
  unfold arrayLiteral
  rw [hc]
  refine keeps_pair (p := .lbracket) rfl _ _ (fun _ _ => rfl) (fun _ => mapError_within _ _)
    (keeps_within (keeps_commaList hg inBody .rbracket n hus (hg.behind rfl)))
    fun es _ past' rest hrest => ?_
  exact keeps_ok hrest

theorem keeps_functionExpression (hk : (facing past ts).kind = .keyword .functionKw) :
    Keeps D (n + 1) past ts (functionExpression g n (facing past ts)) := by
  obtain ⟨s, us, rfl, hus, hc⟩ := facing_cons_of_kind he hk nofun
  unfold functionExpression
  rw [hc]
  refine keeps_step rfl ?_
  dsimp only
  split
  · rename_i hcheck
    obtain ⟨name, hname⟩ := Cursor.check_ident.mp hcheck
    obtain ⟨s', us', rfl, hus', hc'⟩ := facing_cons_of_kind hus hname nofun
    rw [hc']
    have hbody := keeps_paramsAndBody hg (⟨.ident name, s'⟩ :: ⟨.keyword .functionKw, s⟩ :: past) us' hus'
    exact keeps_step rfl (keeps_bind hbody fun _ _ _ he => keeps_ok he)
  · exact keeps_bind (keeps_paramsAndBody hg _ us hus) fun _ _ _ he => keeps_ok he

theorem keeps_newExpression (hk : (facing past ts).kind = .keyword .newKw) :
    Keeps D (n + 1) past ts (newExpression g inBody n (facing past ts)) := by
  obtain ⟨s, us, rfl, hus, hc⟩ := facing_cons_of_kind he hk nofun
  unfold newExpression
  rw [hc]
  refine keeps_deeper rfl (keeps_bind (hg.primary inBody _ us hus (hg.behind rfl)) fun _ past₁ rest₁ h₁ => ?_)
  refine keeps_bind (keeps_dottedNames n past₁ rest₁ h₁) fun _ past₂ rest₂ h₂ => ?_
  dsimp only
  split
  · have hargs := (keeps_arguments hg inBody past₂ rest₂ h₂).mono (Nat.le_succ n)
    exact keeps_bind hargs fun _ _ _ he => keeps_ok he
  · exact keeps_ok h₂

end

theorem keeps_primaryAt : KeepsOperands D (n + 1) (primaryAt g inBody n) := by
  intro past ts he hstart
  unfold primaryAt
  split
  all_goals rename_i hk
  · exact keeps_token rfl he hk
  · exact keeps_token rfl he hk
  · exact keeps_token rfl he hk
  · exact keeps_token rfl he hk
  · exact keeps_token rfl he hk
  · exact keeps_token rfl he hk
  · exact keeps_token rfl he hk
  · exact keeps_parenthesized hg inBody he hk
  · exact keeps_arrayLiteral hg inBody he hk
  · obtain ⟨s, us, rfl, hus, -⟩ := facing_cons_of_kind he hk nofun
    exact keeps_skipObject (hstart hk) n hus
  · exact keeps_functionExpression hg he hk
  · exact keeps_newExpression hg inBody he hk
  · exact keeps_fail rfl

/-! ## Member access and calls -/

section
variable {past ts : List Token} (he : EndsOnce ts)
include he

omit hg in
theorem keeps_dotMember (object : Node) (hk : (facing past ts).kind = .punct .dot) :
    Keeps D (n + 1) past ts (dotMember object (facing past ts)) := by
  obtain ⟨s, us, rfl, hus, hc⟩ := facing_cons_of_kind he hk nofun
  unfold dotMember
  rw [hc]
  exact keeps_property hus (fun c => within .memberAccess (propertyName c)) (fun _ => mapError_within _ _)
    fun _ _ _ he => keeps_ok he

theorem keeps_computedMember (object : Node) (hk : (facing past ts).kind = .punct .lbracket) :
    Keeps D (n + 1) past ts (computedMember g inBody object (facing past ts)) := by
  obtain ⟨s, us, rfl, hus, hc⟩ := facing_cons_of_kind he hk nofun
  unfold computedMember
  rw [hc]
  refine keeps_pair (p := .lbracket) rfl _ _ (fun _ _ => rfl) (fun _ => mapError_within _ _)
    (keeps_within (hg.expression inBody _ us hus (hg.behind rfl))) fun p _ past' rest hrest => ?_
  exact keeps_ok hrest

theorem keeps_callOf (callee : Node) : Keeps D (n + 1) past ts (callOf g inBody n callee (facing past ts)) := by
  unfold callOf
  exact keeps_bind (keeps_within (keeps_arguments hg inBody past ts he)) fun _ _ _ he => keeps_ok he

end

theorem keeps_suffixes (k : Nat) (e : Node) : KeepsUpTo D (n + 1) (suffixes g inBody n k e) := by
  induction k generalizing e with
  | zero => exact keeps_pure e
  | succ k ih =>
    intro past ts he
    unfold suffixes
    split
    · rename_i hk
      refine keeps_bind (keeps_dotMember he e hk) fun e' past' rest hrest => ?_
      exact ih e' past' rest hrest
    · rename_i hk
      refine keeps_bind (keeps_computedMember hg inBody he e hk) fun e' past' rest hrest => ?_
      exact ih e' past' rest hrest
    · refine keeps_bind (keeps_callOf hg inBody he e) fun e' past' rest hrest => ?_
      exact ih e' past' rest hrest
    · exact keeps_ok he

theorem keeps_postfixAt : KeepsOperands D (n + 1) (postfixAt g inBody n) := by
  intro past ts he hstart
  unfold postfixAt
  refine keeps_bind (keeps_primaryAt hg inBody past ts he hstart) fun e past' rest hrest => ?_
  exact keeps_suffixes hg inBody n e past' rest hrest

/-! ## Operators -/

omit hg in
theorem plain_sign {k : TokenKind} (h : isSign k.tag = true) : isPlain k = true ∧ leavesOperand k = true := by
  cases k with
  | punct p => cases p <;> first | exact ⟨rfl, rfl⟩ | cases h
  | keyword k => cases k <;> first | exact ⟨rfl, rfl⟩ | cases h
  | _ => cases h

theorem keeps_unaryAt : KeepsOperands D (n + 1) (unaryAt g inBody n) := by
  intro past ts he hstart
  unfold unaryAt
  split
  · rename_i hsign
    obtain ⟨k, hk⟩ : ∃ k, (facing past ts).kind = k := ⟨_, rfl⟩
    obtain ⟨hplain, hleaves⟩ : isPlain k = true ∧ leavesOperand k = true := hk ▸ plain_sign hsign
    obtain ⟨s, us, rfl, hus, hc⟩ := facing_cons_of_kind he hk (ne_eof_of_isLevel (isLevel_of_isPlain hplain))
    dsimp only
    rw [hc]
    have hoperand := hg.unary inBody (⟨k, s⟩ :: past) us hus (hg.behind hleaves)
    exact keeps_deeper hplain (keeps_bind hoperand fun _ _ _ he => keeps_ok he)
  · exact keeps_postfixAt hg inBody past ts he hstart

theorem keeps_exponentAt : KeepsOperands D (n + 1) (exponentAt g inBody n) := by
  intro past ts he hstart
  unfold exponentAt
  refine keeps_bind (keeps_unaryAt hg inBody past ts he hstart) fun base past' rest hrest => ?_
  refine keeps_eats rfl (Nat.le_refl _) hrest (keeps_ok hrest) fun s rest₂ h₂ => ?_
  exact keeps_bind (hg.exponent inBody _ rest₂ h₂ (hg.behind rfl)) fun _ _ _ he => keeps_ok he

theorem keeps_chain {joins : Joins} (hj : joins.Plain) {operand : Cursor → Parsed (Node × Cursor)} {M : Nat}
    (ho : KeepsOperands D M operand) (k : Nat) : KeepsOperands D M (chain joins operand k) := by
  intro past ts he hstart
  unfold chain
  refine keeps_bind (ho past ts he hstart) fun left past' rest hrest => ?_
  clear he hstart
  induction k generalizing left past' rest with
  | zero => exact keeps_ok hrest
  | succ k ih =>
    dsimp only
    unfold chainFrom
    split
    · exact keeps_ok hrest
    · rename_i join hjoin
      obtain ⟨p, htag, hplain, hleaves⟩ := hj hjoin
      obtain ⟨s, us, rfl, hus, hc⟩ := facing_cons_of_kind hrest (Cursor.kind_of_tag htag) nofun
      rw [hc]
      refine keeps_step hplain (keeps_bind (ho _ us hus (hg.behind hleaves)) fun right past₂ rest₂ h₂ => ?_)
      exact ih _ past₂ rest₂ h₂

theorem keeps_productAt : KeepsOperands D (n + 1) (productAt g inBody n) :=
  keeps_chain hg (joins_plain (by simp)) (keeps_exponentAt hg inBody) n

theorem keeps_sumAt : KeepsOperands D (n + 1) (sumAt g inBody n) :=
  keeps_chain hg (joins_plain (by simp)) (keeps_productAt hg inBody) n

theorem keeps_relationAt : KeepsOperands D (n + 1) (relationAt g inBody n) :=
  keeps_chain hg (joins_plain (by simp)) (keeps_sumAt hg inBody) n

theorem keeps_equalityAt : KeepsOperands D (n + 1) (equalityAt g inBody n) :=
  keeps_chain hg (joins_plain (by simp)) (keeps_relationAt hg inBody) n

theorem keeps_andAt : KeepsOperands D (n + 1) (andAt g inBody n) :=
  keeps_chain hg (joins_plain (by simp)) (keeps_equalityAt hg inBody) n

theorem keeps_orAt : KeepsOperands D (n + 1) (orAt g inBody n) :=
  keeps_chain hg (joins_plain (by simp)) (keeps_andAt hg inBody) n

theorem keeps_conditionalAt : KeepsOperands D (n + 1) (conditionalAt g inBody n) := by
  intro past ts he hstart
  unfold conditionalAt
  refine keeps_bind (keeps_orAt hg inBody past ts he hstart) fun test past' rest hrest => ?_
  refine keeps_eats rfl (Nat.le_refl _) hrest (keeps_ok hrest) fun s rest₂ h₂ => ?_
  refine keeps_bind (hg.expression inBody _ rest₂ h₂ (hg.behind rfl)) fun _ past₃ rest₃ h₃ => ?_
  refine keeps_expect h₃ fun s us hts hus => ?_
  subst hts
  exact keeps_step rfl (keeps_bind (hg.expression inBody _ us hus (hg.behind rfl)) fun _ _ _ he => keeps_ok he)

theorem keeps_expressionAt : KeepsOperands D (n + 1) (expressionAt g inBody n) := by
  intro past ts he hstart
  unfold expressionAt
  refine keeps_bind (keeps_conditionalAt hg inBody past ts he hstart) fun left past' rest hrest => ?_
  refine keeps_eats rfl (Nat.le_refl _) hrest (keeps_ok hrest) fun s rest₂ h₂ => ?_
  exact keeps_bind (hg.expression inBody _ rest₂ h₂ (hg.behind rfl)) fun _ _ _ he => keeps_ok he

/-! ## Statements -/

theorem keeps_declarator : KeepsUpTo D (n + 1) (declarator g inBody) := by
  intro past ts he
  unfold declarator
  refine keeps_bind (keeps_expectIdent past ts he) fun id past' rest hrest => ?_
  refine keeps_eats rfl (Nat.le_refl _) hrest (keeps_ok hrest) fun s rest₂ h₂ => ?_
  exact keeps_bind (hg.expression inBody _ rest₂ h₂ (hg.behind rfl)) fun _ _ _ he => keeps_ok he

theorem keeps_declarators (k : Nat) : KeepsUpTo D (n + 1) (declarators g inBody k) := by
  induction k with
  | zero =>
    intro past ts he
    unfold declarators
    exact keeps_bind (keeps_within (keeps_declarator hg inBody past ts he)) fun _ _ _ he => keeps_ok he
  | succ k ih =>
    intro past ts he
    unfold declarators
    refine keeps_bind (keeps_within (keeps_declarator hg inBody past ts he)) fun d past' rest hrest => ?_
    refine keeps_eats rfl (Nat.le_succ _) hrest (keeps_ok hrest) fun s rest₂ h₂ => ?_
    exact keeps_bind (ih _ rest₂ h₂) fun _ _ _ he => keeps_ok he

theorem keeps_expressionStatement : KeepsOperands D (n + 1) (expressionStatement g inBody n) := by
  intro past ts he hstart
  unfold expressionStatement
  exact keeps_bind (keeps_expressionAt hg inBody past ts he hstart) fun e _ _ hrest => keeps_skip rfl hrest

section
variable {past ts : List Token} (he : EndsOnce ts)
include he

theorem keeps_variableDeclaration {k : Keyword} (hk : (facing past ts).kind = .keyword k) (hplain : isPlain (.keyword k) = true)
    (word : DeclarationWord) : Keeps D (n + 1) past ts (variableDeclaration g inBody n word (facing past ts)) := by
  obtain ⟨s, us, rfl, hus, hc⟩ := facing_cons_of_kind he hk nofun
  unfold variableDeclaration
  rw [hc]
  have hds := keeps_declarators hg inBody n (⟨.keyword k, s⟩ :: past) us hus
  exact keeps_step hplain (keeps_bind hds fun ds _ _ hrest => keeps_skip rfl hrest)

theorem keeps_namedFunction : Keeps D (n + 1) past ts (namedFunction g n (facing past ts)) := by
  unfold namedFunction
  refine keeps_bind (keeps_expectIdent past ts he) fun id past' rest hrest => ?_
  exact keeps_bind (keeps_paramsAndBody hg past' rest hrest) fun _ _ _ he => keeps_ok he

theorem keeps_functionDeclaration (hk : (facing past ts).kind = .keyword .functionKw) :
    Keeps D (n + 1) past ts (functionDeclaration g n (facing past ts)) := by
  obtain ⟨s, us, rfl, hus, hc⟩ := facing_cons_of_kind he hk nofun
  unfold functionDeclaration
  rw [hc]
  have hnamed : Keeps D (n + 1) (⟨.keyword .functionKw, s⟩ :: past) us _ := keeps_namedFunction hg hus
  exact keeps_step rfl (keeps_bind (keeps_within hnamed) fun _ _ _ he => keeps_ok he)

theorem keeps_returnStatement (hk : (facing past ts).kind = .keyword .returnKw) :
    Keeps D (n + 1) past ts (returnStatement g inBody (facing past ts)) := by
  obtain ⟨s, us, rfl, hus, hc⟩ := facing_cons_of_kind he hk nofun
  unfold returnStatement
  rw [hc]
  dsimp only
  split
  · have hargument : Keeps D n (⟨.keyword .returnKw, s⟩ :: past) us
        (returnArgument g inBody (facing (⟨.keyword .returnKw, s⟩ :: past) us)) := by
      unfold returnArgument
      split
      · exact keeps_ok hus
      · exact keeps_bind (hg.expression inBody _ us hus (hg.behind rfl)) fun _ _ _ he => keeps_ok he
    exact keeps_deeper rfl (keeps_bind hargument fun _ _ _ hrest => keeps_skip rfl hrest)
  · exact keeps_fail rfl

theorem keeps_keywordStatement {k : Keyword} (hk : (facing past ts).kind = .keyword k) :
    Keeps D (n + 1) past ts (keywordStatement g inBody n k (facing past ts)) := by
  unfold keywordStatement
  split
  · exact keeps_variableDeclaration hg inBody he hk rfl .var
  · exact keeps_variableDeclaration hg inBody he hk rfl .letWord
  · exact keeps_variableDeclaration hg inBody he hk rfl .const
  · exact keeps_functionDeclaration hg he hk
  · exact keeps_returnStatement hg inBody he hk
  · split
    · rename_i kind hkind
      obtain ⟨s, us, rfl, hus, -⟩ := facing_cons_of_kind he hk nofun
      exact keeps_skipStatement hkind n hus
    · exact keeps_expressionStatement hg inBody past ts he (mayStart_of_kind hk nofun)

end

theorem keeps_statementAt : KeepsUpTo D (n + 1) (statementAt g inBody n) := by
  intro past ts he
  unfold statementAt
  split
  · rename_i hk
    exact keeps_keywordStatement hg inBody he hk
  · exact keeps_block (hg.statement inBody) n past ts he
  · rename_i hk
    exact keeps_token rfl he hk
  · rename_i hbrace _
    exact keeps_expressionStatement hg inBody past ts he fun hk => absurd hk hbrace

/-! ## Levels -/

theorem next_keepsBrackets : (g.next n).KeepsBrackets D (n + 1) where
  allowed := hg.allowed
  expression inBody past ts he hstart := by
    simp only [next, Stack.atLevel_eq]
    exact keeps_expressionAt hg inBody past ts he hstart
  exponent inBody past ts he hstart := by
    simp only [next, Stack.atLevel_eq]
    exact keeps_exponentAt hg inBody past ts he hstart
  unary inBody past ts he hstart := by
    simp only [next, Stack.atLevel_eq]
    exact keeps_unaryAt hg inBody past ts he hstart
  primary inBody past ts he hstart := by
    simp only [next, Stack.atLevel_eq]
    exact keeps_primaryAt hg inBody past ts he hstart
  statement inBody past ts he := by
    simp only [next, Stack.atLevel_eq]
    exact keeps_statementAt hg inBody past ts he

end

theorem ofDepth_keepsBrackets (hD : ∀ {past}, AwaitsOperand past → D past) (n : Nat) : (ofDepth n).KeepsBrackets D n := by
  induction n with
  | zero =>
    have hbottom (past ts : List Token) : Keeps D 0 past ts
        (fail (.expectedExpression (facing past ts).tag) (facing past ts).span : Parsed (Node × Cursor)) := keeps_fail rfl
    exact ⟨hD, fun _ past ts _ _ => hbottom past ts, fun _ past ts _ _ => hbottom past ts,
      fun _ past ts _ _ => hbottom past ts, fun _ past ts _ _ => hbottom past ts, fun _ past ts _ => hbottom past ts⟩
  | succ n ih => exact next_keepsBrackets ih

end

end Grammar

end Treewalk
