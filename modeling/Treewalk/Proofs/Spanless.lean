/-
  Treewalk.Proofs.Spanless — parsing goes by the kinds of the tokens, not by where they stand.

  `bare` forgets where tokens, trees and errors stand. A parser is `Spanless` if it makes no
  difference whether that is forgotten before it runs or after. Proved: all parsers are, so token
  lists with the same kinds give the same tree, or fail alike, up to spans (`parseTokens_bare`,
  `parseTokens_of_kinds`).
-/

import Treewalk.Proofs.Printing
import Treewalk.Grammar.Program

namespace Treewalk

/-! ## Forgetting where things stand -/

def Token.bare (t : Token) : Token := ⟨t.kind, .none⟩

def Param.bare (p : Param) : Param := ⟨p.name, .none⟩

/-- The cause without the place of an opening bracket. -/
def ParseCause.bare : ParseCause → ParseCause
  | .unclosedDelimiter opener _ => .unclosedDelimiter opener .none
  | cause => cause

def ParseError.bare (e : ParseError) : ParseError := ⟨e.cause.bare, .none, e.context⟩

@[simp] theorem Span.merge_none : Span.none.merge .none = .none := rfl

namespace Cursor

def bare (c : Cursor) : Cursor := ⟨c.past.map Token.bare, c.rest.map Token.bare, c.beyond⟩

variable (c : Cursor)

@[simp] theorem current_bare : c.bare.current = c.current.bare := by
  rcases c with ⟨_ | ⟨p, ps⟩, _ | ⟨t, ts⟩, b⟩ <;> rfl

@[simp] theorem kind_bare : c.bare.kind = c.kind := by rw [kind, current_bare, kind, Token.bare]

@[simp] theorem tag_bare : c.bare.tag = c.tag := by
  show c.bare.kind.tag = c.kind.tag
  rw [kind_bare]

@[simp] theorem span_bare : c.bare.span = .none := by rw [span, current_bare, Token.bare]

@[simp] theorem previousSpan_bare : c.bare.previousSpan = .none := by
  rcases c with ⟨_ | ⟨p, ps⟩, ts, _ | b⟩ <;> rfl

@[simp] theorem spanFrom_bare : c.bare.spanFrom .none = .none := by rw [spanFrom, previousSpan_bare, Span.merge_none]

@[simp] theorem check_bare (t : Tag) : c.bare.check t = c.check t := by rw [check, check, tag_bare]

@[simp] theorem atEnd_bare : c.bare.atEnd = c.atEnd := by rw [atEnd, atEnd, tag_bare]

@[simp] theorem advance_bare : c.bare.advance = c.advance.bare := by
  unfold advance
  rw [atEnd_bare]
  split
  · rfl
  · rcases c with ⟨ps, _ | ⟨t, ts⟩, b⟩ <;> rfl

@[simp] theorem eats?_bare (p : Punct) : c.bare.eats? p = (c.eats? p).map bare := by
  unfold eats?
  rw [check_bare, advance_bare]
  split <;> rfl

@[simp] theorem skip_bare (p : Punct) : c.bare.skip p = (c.skip p).bare := by
  rw [skip, skip, eats?_bare]
  cases c.eats? p <;> rfl

end Cursor

namespace Grammar

/-- What a parser gave, without where it stands. -/
def forget {α : Type} (f : α → α) (r : Parsed (α × Cursor)) : Parsed (α × Cursor) :=
  match r with
  | .ok (a, c) => .ok (f a, c.bare)
  | .error e => .error e.bare

/-- It makes no difference whether spans are forgotten before the parser runs or after. -/
def Spanless {α : Type} (f : α → α) (p : Cursor → Parsed (α × Cursor)) : Prop := ∀ c, p c.bare = forget f (p c)

section
variable {α β : Type} {f : α → α} {h : β → β}

theorem forget_bind {x y : Parsed (α × Cursor)} {k k' : α × Cursor → Parsed (β × Cursor)} (hx : y = forget f x)
    (hk : ∀ a c, k' (f a, c.bare) = forget h (k (a, c))) : (y >>= k') = forget h (x >>= k) := by
  subst hx
  cases x with
  | error e => rfl
  | ok r => exact hk r.1 r.2

theorem forget_within {x y : Parsed (α × Cursor)} (context : Context) (hx : y = forget f x) :
    within context y = forget f (within context x) := by
  subst hx
  cases x <;> rfl

theorem forget_ok {a b : α} {c : Cursor} (hb : b = f a) : (.ok (b, c.bare) : Parsed (α × Cursor)) = forget f (.ok (a, c)) := by
  rw [hb]
  rfl

end

/-! ## The steps all parsing is made of -/

section
variable {p : Punct} {n : Nat}

theorem spanless_expect : Spanless (fun _ => Span.none) (expect p) := by
  intro c
  unfold expect
  simp only [Cursor.check_bare, Cursor.span_bare, Cursor.tag_bare, Cursor.advance_bare]
  split <;> rfl

theorem forget_unclosed {α : Type} {f : α → α} (opener : Punct) (opened : Span) (c : Cursor) :
    unclosed opener .none c.bare = forget f (unclosed opener opened c) := by
  rw [unclosed, Cursor.span_bare]
  rfl

theorem forget_expectClosing (close opener : Punct) (opened : Span) (c : Cursor) :
    expectClosing close opener .none c.bare = forget (fun _ => Span.none) (expectClosing close opener opened c) := by
  unfold expectClosing
  rw [Cursor.atEnd_bare]
  split
  · exact forget_unclosed opener opened c
  · exact spanless_expect c

theorem spanless_expectIdent : Spanless Param.bare expectIdent := by
  intro c
  unfold expectIdent
  simp only [Cursor.kind_bare, Cursor.span_bare, Cursor.advance_bare]
  cases c.kind <;> rfl

theorem spanless_commaList {item : Cursor → Parsed (Node × Cursor)} (hitem : Spanless Node.bare item) (close : Punct) (n : Nat) :
    Spanless (List.map Node.bare) (commaList item close n) := by
  induction n with
  | zero => exact fun c => rfl
  | succ n ih =>
    intro c
    simp only [commaList, Cursor.check_bare, Cursor.atEnd_bare]
    split
    · rfl
    · refine forget_bind (hitem c) fun e c => ?_
      simp only [Cursor.eats?_bare]
      cases c.eats? .comma with
      | none => rfl
      | some c => exact forget_bind (ih c) fun es c => rfl

theorem spanless_statements {statement : Cursor → Parsed (Node × Cursor)} (hs : Spanless Node.bare statement) (n : Nat) :
    Spanless (List.map Node.bare) (statements statement n) := by
  induction n with
  | zero => exact fun c => rfl
  | succ n ih =>
    intro c
    simp only [statements, Cursor.check_bare, Cursor.atEnd_bare]
    split
    · rfl
    · exact forget_bind (hs c) fun s c => forget_bind (ih c) fun ss c => rfl

theorem spanless_block {statement : Cursor → Parsed (Node × Cursor)} (hs : Spanless Node.bare statement) :
    Spanless Node.bare (block statement n) := by
  intro c
  refine forget_bind (spanless_expect c) fun opened c => ?_
  refine forget_bind (spanless_statements hs n c) fun body c => ?_
  refine forget_bind (forget_within _ (forget_expectClosing _ _ opened c)) fun _ c => ?_
  exact forget_ok (by simp [Node.bare])

theorem spanless_params (n : Nat) : Spanless (List.map Param.bare) (params n) := by
  induction n with
  | zero => exact fun c => rfl
  | succ n ih =>
    intro c
    simp only [params, Cursor.check_bare, Cursor.atEnd_bare]
    split
    · rfl
    · refine forget_bind (forget_within _ (spanless_expectIdent c)) fun p c => ?_
      simp only [Cursor.eats?_bare]
      cases c.eats? .comma with
      | none => rfl
      | some c => exact forget_bind (ih c) fun ps c => rfl

end

/-- No parser of the level minds where tokens stand. -/
structure IgnoresSpans (g : Grammar) : Prop where
  expression : ∀ inBody, Spanless Node.bare (g.expression inBody)
  exponent : ∀ inBody, Spanless Node.bare (g.exponent inBody)
  unary : ∀ inBody, Spanless Node.bare (g.unary inBody)
  primary : ∀ inBody, Spanless Node.bare (g.primary inBody)
  statement : ∀ inBody, Spanless Node.bare (g.statement inBody)

section
variable {g : Grammar} (hg : IgnoresSpans g) (inBody : Bool) (n : Nat)

/-! ## Skipped constructs -/

theorem forget_skipped (kind : String) (start : Span) (c : Cursor) :
    skipped kind .none c.bare = forget Node.bare (skipped kind start c) :=
  forget_ok (by simp [Node.bare])

@[simp] theorem continues_bare (kind : String) (c : Cursor) : continues kind c.bare = continues kind c := by
  unfold continues
  rw [Cursor.kind_bare]

/-- The open brackets without where they stand. -/
def bareOpened (opened : List (Punct × Span)) : List (Punct × Span) := opened.map fun o => (o.1, .none)

theorem forget_skippedAtEnd (kind : String) (start : Span) (opened : List (Punct × Span)) (c : Cursor) :
    skippedAtEnd kind .none (bareOpened opened) c.bare = forget Node.bare (skippedAtEnd kind start opened c) := by
  cases opened with
  | nil => exact forget_skipped kind start c
  | cons o opened => exact forget_within _ (forget_unclosed o.1 o.2 c)

theorem forget_skipFrom (kind : String) (start : Span) (n : Nat) (opened : List (Punct × Span)) (c : Cursor) :
    skipFrom kind .none n (bareOpened opened) c.bare = forget Node.bare (skipFrom kind start n opened c) := by
  induction n generalizing opened c with
  | zero => exact forget_skippedAtEnd kind start opened c
  | succ n ih =>
    have hnext (opened : List (Punct × Span)) :
        skipFrom kind .none n (bareOpened opened) c.bare.advance = forget Node.bare (skipFrom kind start n opened c.advance) := by
      rw [Cursor.advance_bare]
      exact ih opened c.advance
    simp only [skipFrom, Cursor.kind_bare, Cursor.span_bare]
    cases c.kind with
    | eof => exact forget_skippedAtEnd kind start opened c
    | punct p =>
      simp only
      split
      · exact hnext ((p, c.span) :: opened)
      split
      · cases opened with
        | nil => exact forget_skipped kind start c
        | cons o opened =>
          simp only [bareOpened, List.map_cons, List.isEmpty_map, Cursor.advance_bare, Cursor.skip_bare, continues_bare]
          split
          · exact forget_skipped kind start _
          · rw [← Cursor.advance_bare]
            exact hnext opened
      simp only [Cursor.advance_bare, continues_bare]
      have hempty : (bareOpened opened).isEmpty = opened.isEmpty := List.isEmpty_map
      rw [hempty]
      split
      · exact forget_skipped kind start _
      · rw [← Cursor.advance_bare]
        exact hnext opened
    | _ => exact hnext opened

theorem spanless_skipStatement (kind : String) (n : Nat) : Spanless Node.bare (skipStatement kind n) := by
  intro c
  rw [skipStatement, Cursor.span_bare]
  exact forget_skipFrom kind c.span n [] c

theorem forget_skipObjectFrom (start : Span) (n depth : Nat) (c : Cursor) :
    skipObjectFrom .none n depth c.bare = forget Node.bare (skipObjectFrom start n depth c) := by
  have hunclosed (c : Cursor) : within .unsupportedSyntax (unclosed .lbrace .none c.bare) =
      forget Node.bare (within .unsupportedSyntax (unclosed .lbrace start c)) :=
    forget_within _ (forget_unclosed .lbrace start c)
  induction n generalizing depth c with
  | zero => exact hunclosed c
  | succ n ih =>
    simp only [skipObjectFrom, Cursor.kind_bare, Cursor.advance_bare]
    cases c.kind with
    | eof => exact hunclosed c
    | punct p =>
      simp only
      split
      · exact ih (depth + 1) c.advance
      split
      · split
        · exact forget_skipped "ObjectExpression" start _
        · exact ih (depth - 1) c.advance
      · exact ih depth c.advance
    | _ => exact ih depth c.advance

theorem spanless_skipObject (n : Nat) : Spanless Node.bare (skipObject n) := by
  intro c
  rw [skipObject, Cursor.span_bare]
  exact forget_skipObjectFrom c.span n 0 c

/-! ## Expressions -/

include hg

theorem spanless_paramsAndBody : Spanless (fun r => (r.1.map Param.bare, r.2.bare)) (paramsAndBody g n) := by
  intro c
  refine forget_bind (spanless_expect c) fun opened c => ?_
  refine forget_bind (spanless_params n c) fun ps c => ?_
  refine forget_bind (forget_within _ (forget_expectClosing _ _ opened c)) fun _ c => ?_
  exact forget_bind (spanless_block (hg.statement true) c) fun body c => rfl

omit hg in
theorem spanless_propertyName : Spanless Node.bare propertyName := by
  intro c
  unfold propertyName
  simp only [Cursor.kind_bare, Cursor.span_bare, Cursor.advance_bare]
  cases c.kind <;> rfl

theorem spanless_arguments : Spanless (List.map Node.bare) (arguments g inBody n) := by
  intro c
  refine forget_bind (spanless_expect c) fun opened c => ?_
  refine forget_bind (spanless_commaList (hg.expression inBody) _ n c) fun es c => ?_
  exact forget_bind (forget_expectClosing _ _ opened c) fun _ c => rfl

theorem spanless_parenthesized : Spanless Node.bare (parenthesized g inBody) := by
  intro c
  simp only [parenthesized, Cursor.span_bare, Cursor.advance_bare]
  refine forget_bind (forget_within _ (hg.expression inBody _)) fun e c' => ?_
  exact forget_bind (forget_within _ (forget_expectClosing _ _ c.span c')) fun _ c => rfl

theorem spanless_arrayLiteral : Spanless Node.bare (arrayLiteral g inBody n) := by
  intro c
  simp only [arrayLiteral, Cursor.span_bare, Cursor.advance_bare]
  refine forget_bind (forget_within _ (spanless_commaList (hg.expression inBody) _ n _)) fun es c' => ?_
  refine forget_bind (forget_within _ (forget_expectClosing _ _ c.span c')) fun _ c => ?_
  exact forget_ok (by simp [Node.bare])

theorem spanless_functionExpression : Spanless Node.bare (functionExpression g n) := by
  intro c
  have hbody := spanless_paramsAndBody hg n (if c.advance.check .ident then c.advance.advance else c.advance)
  simp only [functionExpression, Cursor.span_bare, Cursor.advance_bare, Cursor.check_bare, ← apply_ite Cursor.bare]
  refine forget_bind hbody fun _ c => ?_
  exact forget_ok (by simp [Node.bare])

omit hg in
theorem spanless_dottedNames : Spanless id (dottedNames n) := by
  induction n with
  | zero => exact fun c => rfl
  | succ n ih =>
    intro c
    simp only [dottedNames, Cursor.eats?_bare]
    cases c.eats? .dot with
    | none => rfl
    | some c => exact forget_bind (spanless_propertyName c) fun _ c => ih c

theorem spanless_newExpression : Spanless Node.bare (newExpression g inBody n) := by
  intro c
  simp only [newExpression, Cursor.span_bare, Cursor.advance_bare]
  refine forget_bind (hg.primary inBody _) fun _ c' => ?_
  refine forget_bind (spanless_dottedNames n c') fun _ c' => ?_
  simp only [Cursor.check_bare]
  split
  · refine forget_bind (spanless_arguments hg inBody n c') fun _ c' => ?_
    exact forget_ok (by simp [Node.bare])
  · exact forget_ok (by simp [Node.bare])

theorem spanless_primaryAt : Spanless Node.bare (primaryAt g inBody n) := by
  intro c
  have hparens := spanless_parenthesized hg inBody c
  have harray := spanless_arrayLiteral hg inBody n c
  have hobject := spanless_skipObject n c
  have hfunction := spanless_functionExpression hg n c
  have hnew := spanless_newExpression hg inBody n c
  unfold primaryAt
  simp only [Cursor.kind_bare, Cursor.span_bare, Cursor.advance_bare]
  cases c.kind with
  | keyword k => cases k <;> first | rfl | assumption
  | punct p => cases p <;> first | rfl | assumption
  | _ => rfl

omit hg in
theorem forget_dotMember (e : Node) (c : Cursor) : dotMember e.bare c.bare = forget Node.bare (dotMember e c) := by
  simp only [dotMember, Cursor.advance_bare]
  refine forget_bind (forget_within _ (spanless_propertyName _)) fun property c => ?_
  exact forget_ok (by simp [Node.bare])

theorem forget_computedMember (e : Node) (c : Cursor) :
    computedMember g inBody e.bare c.bare = forget Node.bare (computedMember g inBody e c) := by
  simp only [computedMember, Cursor.span_bare, Cursor.advance_bare]
  refine forget_bind (forget_within _ (hg.expression inBody _)) fun property c' => ?_
  refine forget_bind (forget_within _ (forget_expectClosing _ _ c.span c')) fun _ c => ?_
  exact forget_ok (by simp [Node.bare])

theorem forget_callOf (e : Node) (c : Cursor) :
    callOf g inBody n e.bare c.bare = forget Node.bare (callOf g inBody n e c) := by
  refine forget_bind (forget_within _ (spanless_arguments hg inBody n c)) fun as c => ?_
  exact forget_ok (by simp [Node.bare])

theorem forget_suffixes (k : Nat) (e : Node) (c : Cursor) :
    suffixes g inBody n k e.bare c.bare = forget Node.bare (suffixes g inBody n k e c) := by
  induction k generalizing e c with
  | zero => rfl
  | succ k ih =>
    have hthen {x y : Parsed (Node × Cursor)} (hx : y = forget Node.bare x) :
        (y >>= fun r => suffixes g inBody n k r.1 r.2) =
          forget Node.bare (x >>= fun r => suffixes g inBody n k r.1 r.2) := forget_bind hx ih
    have hdot := hthen (forget_dotMember e c)
    have hcomputed := hthen (forget_computedMember hg inBody e c)
    have hcall := hthen (forget_callOf hg inBody n e c)
    simp only [suffixes, Cursor.kind_bare]
    cases c.kind with
    | punct p => cases p <;> first | rfl | assumption
    | _ => rfl

theorem spanless_postfixAt : Spanless Node.bare (postfixAt g inBody n) := by
  intro c
  exact forget_bind (spanless_primaryAt hg inBody n c) fun e c => forget_suffixes hg inBody n n e c

theorem spanless_unaryAt : Spanless Node.bare (unaryAt g inBody n) := by
  intro c
  simp only [unaryAt, Cursor.tag_bare, Cursor.span_bare, Cursor.advance_bare]
  split
  · refine forget_bind (hg.unary inBody _) fun e c => ?_
    exact forget_ok (by simp [Node.bare])
  · exact spanless_postfixAt hg inBody n c

theorem spanless_exponentAt : Spanless Node.bare (exponentAt g inBody n) := by
  intro c
  refine forget_bind (spanless_unaryAt hg inBody n c) fun base c => ?_
  simp only [Cursor.eats?_bare]
  cases c.eats? .starStar with
  | none => rfl
  | some c =>
    refine forget_bind (hg.exponent inBody c) fun power c => ?_
    exact forget_ok (by simp [joined, Node.bare])

/-! ## Levels of precedence -/

omit hg in
theorem joined_bare (op : BinaryOp) (left right : Node) : joined op left.bare right.bare = (joined op left right).bare := by
  simp [joined, Node.bare]

omit hg in
theorem joinedUnsupported_bare (kind : String) (left right : Node) :
    joinedUnsupported kind left.bare right.bare = (joinedUnsupported kind left right).bare := by
  simp [joinedUnsupported, Node.bare]

/-- The operators of the level join trees alike, wherever these stand. -/
def Joins.IgnoresSpans (joins : Joins) : Prop :=
  ∀ t join, joins t = some join → ∀ left right, join left.bare right.bare = (join left right).bare

omit hg in
theorem spanless_chain {joins : Joins} (hjoins : joins.IgnoresSpans) {operand : Cursor → Parsed (Node × Cursor)}
    (hoperand : Spanless Node.bare operand) (n : Nat) : Spanless Node.bare (chain joins operand n) := by
  have hfrom (k : Nat) (left : Node) (c : Cursor) :
      chainFrom joins operand k left.bare c.bare = forget Node.bare (chainFrom joins operand k left c) := by
    induction k generalizing left c with
    | zero => rfl
    | succ k ih =>
      simp only [chainFrom, Cursor.tag_bare, Cursor.advance_bare]
      cases hj : joins c.tag with
      | none => rfl
      | some join =>
        refine forget_bind (hoperand _) fun right c => ?_
        simp only [hjoins _ _ hj]
        exact ih _ c
  intro c
  exact forget_bind (hoperand c) fun left c => hfrom n left c

theorem spanless_productAt : Spanless Node.bare (productAt g inBody n) := by
  refine spanless_chain (fun t join hj => ?_) (spanless_exponentAt hg inBody n) n
  unfold productJoins at hj
  split at hj <;> cases hj <;> exact joined_bare _

theorem spanless_sumAt : Spanless Node.bare (sumAt g inBody n) := by
  refine spanless_chain (fun t join hj => ?_) (spanless_productAt hg inBody n) n
  unfold sumJoins at hj
  split at hj <;> cases hj <;> exact joined_bare _

theorem spanless_relationAt : Spanless Node.bare (relationAt g inBody n) := by
  refine spanless_chain (fun t join hj => ?_) (spanless_sumAt hg inBody n) n
  unfold relationJoins at hj
  split at hj <;> cases hj <;> exact joined_bare _

theorem spanless_equalityAt : Spanless Node.bare (equalityAt g inBody n) := by
  refine spanless_chain (fun t join hj => ?_) (spanless_relationAt hg inBody n) n
  unfold equalityJoins at hj
  split at hj <;> cases hj <;> exact joined_bare _

theorem spanless_andAt : Spanless Node.bare (andAt g inBody n) := by
  refine spanless_chain (fun t join hj => ?_) (spanless_equalityAt hg inBody n) n
  unfold andJoins at hj
  split at hj <;> cases hj
  exact joinedUnsupported_bare _

theorem spanless_orAt : Spanless Node.bare (orAt g inBody n) := by
  refine spanless_chain (fun t join hj => ?_) (spanless_andAt hg inBody n) n
  unfold orJoins at hj
  split at hj <;> cases hj
  exact joinedUnsupported_bare _

theorem spanless_conditionalAt : Spanless Node.bare (conditionalAt g inBody n) := by
  intro c
  refine forget_bind (spanless_orAt hg inBody n c) fun test c => ?_
  simp only [Cursor.eats?_bare]
  cases c.eats? .question with
  | none => rfl
  | some c =>
    refine forget_bind (hg.expression inBody c) fun _ c => ?_
    refine forget_bind (spanless_expect c) fun _ c => ?_
    refine forget_bind (hg.expression inBody c) fun alternate c => ?_
    exact forget_ok (joinedUnsupported_bare _ _ _)

theorem spanless_expressionAt : Spanless Node.bare (expressionAt g inBody n) := by
  intro c
  refine forget_bind (spanless_conditionalAt hg inBody n c) fun left c => ?_
  simp only [Cursor.eats?_bare]
  cases c.eats? .eq with
  | none => rfl
  | some c =>
    refine forget_bind (hg.expression inBody c) fun right c => ?_
    exact forget_ok (joinedUnsupported_bare _ _ _)

/-! ## Statements -/

theorem spanless_declarator : Spanless Node.bare (declarator g inBody) := by
  intro c
  refine forget_bind (spanless_expectIdent c) fun id c => ?_
  simp only [Cursor.eats?_bare]
  cases c.eats? .eq with
  | none => exact forget_ok (by simp [Node.bare, Param.bare])
  | some c =>
    refine forget_bind (hg.expression inBody c) fun e c => ?_
    exact forget_ok (by simp [Node.bare, Param.bare])

theorem spanless_declarators (k : Nat) : Spanless (List.map Node.bare) (declarators g inBody k) := by
  induction k with
  | zero => exact fun c => forget_bind (forget_within _ (spanless_declarator hg inBody c)) fun d c => rfl
  | succ k ih =>
    intro c
    refine forget_bind (forget_within _ (spanless_declarator hg inBody c)) fun d c => ?_
    simp only [Cursor.eats?_bare]
    cases c.eats? .comma with
    | none => rfl
    | some c => exact forget_bind (ih c) fun ds c => rfl

theorem spanless_variableDeclaration (word : DeclarationWord) :
    Spanless Node.bare (variableDeclaration g inBody n word) := by
  intro c
  simp only [variableDeclaration, Cursor.span_bare, Cursor.advance_bare]
  refine forget_bind (spanless_declarators hg inBody n _) fun ds c => ?_
  simp only [Cursor.skip_bare]
  exact forget_ok (by simp [Node.bare])

theorem spanless_namedFunction :
    Spanless (fun r => (r.1.bare, r.2.1.map Param.bare, r.2.2.bare)) (namedFunction g n) := by
  intro c
  refine forget_bind (spanless_expectIdent c) fun id c => ?_
  exact forget_bind (spanless_paramsAndBody hg n c) fun r c => rfl

theorem spanless_functionDeclaration : Spanless Node.bare (functionDeclaration g n) := by
  intro c
  simp only [functionDeclaration, Cursor.span_bare, Cursor.advance_bare]
  refine forget_bind (forget_within _ (spanless_namedFunction hg n _)) fun r c => ?_
  exact forget_ok (by simp [Node.bare, Param.bare])

theorem spanless_returnArgument : Spanless (Option.map Node.bare) (returnArgument g inBody) := by
  intro c
  simp only [returnArgument, Cursor.tag_bare]
  split
  · rfl
  · exact forget_bind (hg.expression inBody c) fun e c => rfl

theorem spanless_returnStatement : Spanless Node.bare (returnStatement g inBody) := by
  intro c
  simp only [returnStatement, Cursor.span_bare, Cursor.advance_bare]
  split
  · refine forget_bind (spanless_returnArgument hg inBody _) fun argument c => ?_
    simp only [Cursor.skip_bare]
    exact forget_ok (by cases argument <;> simp [Node.bare])
  · rfl

theorem spanless_expressionStatement : Spanless Node.bare (expressionStatement g inBody n) := by
  intro c
  refine forget_bind (spanless_expressionAt hg inBody n c) fun e c => ?_
  simp only [Cursor.skip_bare]
  exact forget_ok (by simp [Node.bare])

theorem spanless_keywordStatement (k : Keyword) : Spanless Node.bare (keywordStatement g inBody n k) := by
  unfold keywordStatement
  split
  · exact spanless_variableDeclaration hg inBody n _
  · exact spanless_variableDeclaration hg inBody n _
  · exact spanless_variableDeclaration hg inBody n _
  · exact spanless_functionDeclaration hg n
  · exact spanless_returnStatement hg inBody
  · intro c
    cases skippedKind? k with
    | none => exact spanless_expressionStatement hg inBody n c
    | some kind => exact spanless_skipStatement kind n c

theorem spanless_statementAt : Spanless Node.bare (statementAt g inBody n) := by
  intro c
  have hexpression := spanless_expressionStatement hg inBody n c
  have hblock := spanless_block (n := n) (hg.statement inBody) c
  unfold statementAt
  simp only [Cursor.kind_bare, Cursor.span_bare, Cursor.advance_bare]
  cases c.kind with
  | keyword k => exact spanless_keywordStatement hg inBody n k c
  | punct p => cases p <;> first | rfl | assumption
  | _ => exact hexpression

/-! ## Programs -/

theorem ignoresSpans_next : IgnoresSpans (g.next n) where
  expression inBody c := by simpa only [next, Stack.atLevel_eq] using spanless_expressionAt hg inBody n c
  exponent inBody c := by simpa only [next, Stack.atLevel_eq] using spanless_exponentAt hg inBody n c
  unary inBody c := by simpa only [next, Stack.atLevel_eq] using spanless_unaryAt hg inBody n c
  primary inBody c := by simpa only [next, Stack.atLevel_eq] using spanless_primaryAt hg inBody n c
  statement inBody c := by simpa only [next, Stack.atLevel_eq] using spanless_statementAt hg inBody n c

end

theorem ignoresSpans_ofDepth (n : Nat) : IgnoresSpans (ofDepth n) := by
  induction n with
  | zero =>
    have hnone (c : Cursor) : (fail (.expectedExpression c.bare.tag) c.bare.span : Parsed (Node × Cursor)) =
        forget Node.bare (fail (.expectedExpression c.tag) c.span) := by
      rw [Cursor.tag_bare, Cursor.span_bare]
      rfl
    exact ⟨fun _ => hnone, fun _ => hnone, fun _ => hnone, fun _ => hnone, fun _ => hnone⟩
  | succ n ih => exact ignoresSpans_next ih n

theorem spanless_programStatements {statement : Cursor → Parsed (Node × Cursor)} (hs : Spanless Node.bare statement)
    (n : Nat) : Spanless (List.map Node.bare) (programStatements statement n) := by
  induction n with
  | zero => exact fun c => rfl
  | succ n ih =>
    intro c
    simp only [programStatements, Cursor.atEnd_bare]
    split
    · rfl
    · exact forget_bind (hs c) fun s c => forget_bind (ih c) fun ss c => rfl

theorem spanless_program (n : Nat) : Spanless Node.bare (program n) := by
  intro c
  simp only [program, Cursor.span_bare]
  refine forget_bind (spanless_programStatements ((ignoresSpans_ofDepth n).statement false) n c) fun body c => ?_
  exact forget_ok (by simp [Node.bare])

end Grammar

/-- What a token list gives, without where it stands. -/
def bareParsed (r : Except ParseError Node) : Except ParseError Node :=
  match r with
  | .ok tree => .ok tree.bare
  | .error e => .error e.bare

theorem parseTokens_bare (ts : List Token) : parseTokens (ts.map Token.bare) = bareParsed (parseTokens ts) := by
  have h := Grammar.spanless_program ts.length (Cursor.ofList ts)
  rw [parseTokens, parseTokens, List.length_map, show Cursor.ofList (ts.map Token.bare) = (Cursor.ofList ts).bare from rfl, h]
  cases Grammar.program ts.length (Cursor.ofList ts) <;> rfl

/-- Where tokens stand decides nothing but where trees and errors do. -/
theorem parseTokens_of_kinds {ts us : List Token} (h : us.map (·.kind) = ts.map (·.kind)) :
    bareParsed (parseTokens us) = bareParsed (parseTokens ts) := by
  have hbare : us.map Token.bare = ts.map Token.bare := by
    have := congrArg (List.map fun k => (⟨k, .none⟩ : Token)) h
    rwa [List.map_map, List.map_map] at this
  rw [← parseTokens_bare, ← parseTokens_bare, hbare]

end Treewalk
