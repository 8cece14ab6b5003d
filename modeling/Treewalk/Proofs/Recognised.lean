/-
  Treewalk.Proofs.Recognised — the kinds of constructs that are only recognised.

  A node without a rule says of which kind it is by a text. Proved: in a tree that was read these texts are
  among seventeen (`parse_recognised`). As for shapes, each parsing function is shown to yield trees like that
  from what the grammar one level further in yields (`Grammar.Recognises`).
-/

import Treewalk.Proofs.Printing
import Treewalk.Proofs.Shape

namespace Treewalk

namespace Node

/-- The kinds of constructs that are only recognised. -/
def recognisedKinds : List String :=
  ["IfStatement", "WhileStatement", "ForStatement", "DoWhileStatement", "SwitchStatement", "TryStatement", "ThrowStatement",
    "ClassDeclaration", "BreakStatement", "ContinueStatement", "FunctionExpression", "NewExpression", "ObjectExpression",
    "UnaryExpression", "LogicalExpression", "ConditionalExpression", "AssignmentExpression"]

/-- What is only recognised in the tree is of one of these kinds. -/
def Recognised (n : Node) : Prop := ∀ d ∈ n.nodes, ∀ span kind, d = .unsupported span kind → kind ∈ recognisedKinds

section
variable {n : Node} {span : Span} {kind : String}

theorem recognised_node (hn : ∀ span kind, n ≠ .unsupported span kind) (hc : ∀ d ∈ n.children, d.Recognised) :
    n.Recognised :=
  forall_nodes_iff.mpr ⟨fun span kind h => absurd h (hn span kind), hc⟩

theorem recognised_unsupported (h : kind ∈ recognisedKinds) : (Node.unsupported span kind).Recognised := by
  refine forall_nodes_iff.mpr ⟨fun _ _ hkind => ?_, nofun⟩
  cases hkind
  exact h

end

end Node

open Node

namespace Grammar

/-- The parsers of a level yield trees with such kinds only. -/
structure Recognises (g : Grammar) : Prop where
  expression : ∀ inBody c, Yields Recognised (g.expression inBody c)
  exponent : ∀ inBody c, Yields Recognised (g.exponent inBody c)
  unary : ∀ inBody c, Yields Recognised (g.unary inBody c)
  statement : ∀ inBody c, Yields Recognised (g.statement inBody c)

section
variable {g : Grammar} (hg : g.Recognises) (inBody : Bool) (n : Nat) {e left right : Node} {op : BinaryOp}

/-! ## Primary expressions -/

theorem recognised_leaf (hn : ∀ span kind, e ≠ .unsupported span kind) (hc : e.children = []) : e.Recognised :=
  recognised_node hn (by simp [hc])

theorem recognises_propertyName (c : Cursor) : Yields Recognised (propertyName c) := by
  intro e c' h
  obtain ⟨span, name, rfl⟩ := yields_propertyName c e c' h
  exact recognised_leaf nofun rfl

theorem recognises_skipFrom {kind : String} (hkind : kind ∈ recognisedKinds) (start : Span) (opened : List (Punct × Span))
    (c : Cursor) : Yields Recognised (skipFrom kind start n opened c) := by
  intro e c' h
  obtain ⟨span, rfl⟩ := yields_skipFrom kind start n opened c e c' h
  exact recognised_unsupported hkind

theorem recognises_skipObject (c : Cursor) : Yields Recognised (skipObject n c) := by
  intro e c' h
  obtain ⟨span, rfl⟩ := yields_skipObjectFrom _ _ _ _ e c' h
  exact recognised_unsupported (by decide)

theorem recognises_functionExpression (c : Cursor) : Yields Recognised (functionExpression g n c) :=
  yields_after fun _ _ => yields_ok (recognised_unsupported (by decide))

theorem recognises_newExpression (c : Cursor) : Yields Recognised (newExpression g inBody n c) := by
  unfold newExpression
  refine yields_after fun _ c₁ => ?_
  refine yields_after fun _ c₂ => ?_
  dsimp only
  split
  · exact yields_after fun _ c₃ => yields_ok (recognised_unsupported (by decide))
  · exact yields_after fun _ c₃ => yields_ok (recognised_unsupported (by decide))

include hg

theorem recognises_arguments (c : Cursor) : Yields (fun es => ∀ e ∈ es, Recognised e) (arguments g inBody n c) := by
  unfold arguments
  refine yields_after fun opened c₁ => ?_
  refine yields_bind (yields_commaList (hg.expression inBody) .rparen n c₁) fun es c₂ hes => ?_
  exact yields_after fun _ c₃ => yields_ok hes

theorem recognises_parenthesized (c : Cursor) : Yields Recognised (parenthesized g inBody c) := by
  unfold parenthesized
  refine yields_bind (yields_within (hg.expression inBody _)) fun e c₁ he => ?_
  exact yields_after fun _ c₂ => yields_ok he

theorem recognises_arrayLiteral (c : Cursor) : Yields Recognised (arrayLiteral g inBody n c) := by
  unfold arrayLiteral
  refine yields_bind (yields_within (yields_commaList (hg.expression inBody) .rbracket n _)) fun es c₁ hes => ?_
  exact yields_after fun _ c₂ => yields_ok (recognised_node nofun hes)

theorem recognises_primaryAt (c : Cursor) : Yields Recognised (primaryAt g inBody n c) := by
  unfold primaryAt
  split
  iterate 7 exact yields_ok (recognised_leaf nofun rfl)
  · exact recognises_parenthesized hg inBody c
  · exact recognises_arrayLiteral hg inBody n c
  · exact recognises_skipObject n c
  · exact recognises_functionExpression n c
  · exact recognises_newExpression inBody n c
  · exact yields_fail

/-! ## Member access and calls -/

omit hg in
theorem recognises_dotMember (he : e.Recognised) (c : Cursor) : Yields Recognised (dotMember e c) := by
  unfold dotMember
  refine yields_bind (yields_within (recognises_propertyName _)) fun property c₁ hp => ?_
  exact yields_ok (recognised_node nofun (by simp [children, he, hp]))

theorem recognises_computedMember (he : e.Recognised) (c : Cursor) : Yields Recognised (computedMember g inBody e c) := by
  unfold computedMember
  refine yields_bind (yields_within (hg.expression inBody _)) fun property c₁ hp => ?_
  exact yields_after fun _ c₂ => yields_ok (recognised_node nofun (by simp [children, he, hp]))

theorem recognises_callOf (he : e.Recognised) (c : Cursor) : Yields Recognised (callOf g inBody n e c) := by
  unfold callOf
  refine yields_bind (yields_within (recognises_arguments hg inBody n c)) fun as c₁ has => ?_
  exact yields_ok (recognised_node nofun (List.forall_mem_cons.mpr ⟨he, has⟩))

theorem recognises_suffixes (k : Nat) (he : e.Recognised) (c : Cursor) : Yields Recognised (suffixes g inBody n k e c) := by
  induction k generalizing e c with
  | zero => exact yields_ok he
  | succ k ih =>
    unfold suffixes
    split
    · exact yields_bind (recognises_dotMember he c) fun e' c₁ he' => ih he' c₁
    · exact yields_bind (recognises_computedMember hg inBody he c) fun e' c₁ he' => ih he' c₁
    · exact yields_bind (recognises_callOf hg inBody n he c) fun e' c₁ he' => ih he' c₁
    · exact yields_ok he

/-! ## Operators -/

theorem recognises_unaryAt (c : Cursor) : Yields Recognised (unaryAt g inBody n c) := by
  unfold unaryAt
  split
  · exact yields_after fun e c₁ => yields_ok (recognised_unsupported (by decide))
  · exact yields_bind (recognises_primaryAt hg inBody n c) fun e c₁ he => recognises_suffixes hg inBody n n he c₁

omit hg in
theorem recognised_joined (hl : left.Recognised) (hr : right.Recognised) : (joined op left right).Recognised :=
  recognised_node nofun (by simp [joined, children, hl, hr])

theorem recognises_exponentAt (c : Cursor) : Yields Recognised (exponentAt g inBody n c) := by
  unfold exponentAt
  refine yields_bind (recognises_unaryAt hg inBody n c) fun base c₁ hbase => ?_
  dsimp only
  split
  · exact yields_ok hbase
  · refine yields_bind (hg.exponent inBody _) fun power c₂ hpower => ?_
    exact yields_ok (recognised_joined hbase hpower)

omit hg in
/-- Whatever the level, two operands are joined to a node with a rule, or to a logical expression. -/
theorem recognises_chain {joins : Joins} {operand : Cursor → Parsed (Node × Cursor)}
    (hj : ∀ {tag join}, joins tag = some join → (∃ op, join = joined op) ∨ join = joinedUnsupported "LogicalExpression")
    (ho : ∀ c, Yields Recognised (operand c)) (c : Cursor) : Yields Recognised (chain joins operand n c) := by
  unfold chain
  refine yields_bind (ho c) fun left c₁ hl => ?_
  induction n generalizing left c₁ with
  | zero => exact yields_ok hl
  | succ k ih =>
    dsimp only
    unfold chainFrom
    split
    · exact yields_ok hl
    · rename_i join hjoin
      refine yields_bind (ho _) fun right c₂ hr => ih _ c₂ ?_
      rcases hj hjoin with ⟨op, rfl⟩ | rfl
      · exact recognised_joined hl hr
      · exact recognised_unsupported (by decide)

theorem recognises_productAt (c : Cursor) : Yields Recognised (productAt g inBody n c) := by
  refine recognises_chain n (fun {tag join} h => ?_) (recognises_exponentAt hg inBody n) c
  unfold productJoins at h
  split at h <;> cases h <;> exact .inl ⟨_, rfl⟩

theorem recognises_sumAt (c : Cursor) : Yields Recognised (sumAt g inBody n c) := by
  refine recognises_chain n (fun {tag join} h => ?_) (recognises_productAt hg inBody n) c
  unfold sumJoins at h
  split at h <;> cases h <;> exact .inl ⟨_, rfl⟩

theorem recognises_relationAt (c : Cursor) : Yields Recognised (relationAt g inBody n c) := by
  refine recognises_chain n (fun {tag join} h => ?_) (recognises_sumAt hg inBody n) c
  unfold relationJoins at h
  split at h <;> cases h <;> exact .inl ⟨_, rfl⟩

theorem recognises_equalityAt (c : Cursor) : Yields Recognised (equalityAt g inBody n c) := by
  refine recognises_chain n (fun {tag join} h => ?_) (recognises_relationAt hg inBody n) c
  unfold equalityJoins at h
  split at h <;> cases h <;> exact .inl ⟨_, rfl⟩

theorem recognises_andAt (c : Cursor) : Yields Recognised (andAt g inBody n c) := by
  refine recognises_chain n (fun {tag join} h => ?_) (recognises_equalityAt hg inBody n) c
  unfold andJoins at h
  split at h <;> cases h
  exact .inr rfl

theorem recognises_orAt (c : Cursor) : Yields Recognised (orAt g inBody n c) := by
  refine recognises_chain n (fun {tag join} h => ?_) (recognises_andAt hg inBody n) c
  unfold orJoins at h
  split at h <;> cases h
  exact .inr rfl

theorem recognises_expressionAt (c : Cursor) : Yields Recognised (expressionAt g inBody n c) := by
  have hconditional : ∀ c, Yields Recognised (conditionalAt g inBody n c) := by
    intro c
    unfold conditionalAt
    refine yields_bind (recognises_orAt hg inBody n c) fun test c₁ htest => ?_
    dsimp only
    split
    · exact yields_ok htest
    · refine yields_after fun _ c₂ => ?_
      refine yields_after fun _ c₃ => ?_
      exact yields_after fun _ c₄ => yields_ok (recognised_unsupported (by decide))
  unfold expressionAt
  refine yields_bind (hconditional c) fun left c₁ hl => ?_
  dsimp only
  split
  · exact yields_ok hl
  · exact yields_after fun _ c₂ => yields_ok (recognised_unsupported (by decide))

/-! ## Statements -/

theorem recognises_declarator (c : Cursor) : Yields Recognised (declarator g inBody c) := by
  have hid (id : Param) : (Node.ident id.span id.name).Recognised := recognised_leaf nofun rfl
  unfold declarator
  refine yields_after fun id c₁ => ?_
  dsimp only
  split
  · exact yields_ok (recognised_node nofun (by simp [children, hid]))
  · refine yields_bind (hg.expression inBody _) fun e c₂ he => ?_
    exact yields_ok (recognised_node nofun (by simp [children, hid, he]))

theorem recognises_declarators (k : Nat) (c : Cursor) :
    Yields (fun ds => ∀ d ∈ ds, Recognised d) (declarators g inBody k c) := by
  induction k generalizing c with
  | zero =>
    unfold declarators
    refine yields_bind (yields_within (recognises_declarator hg inBody c)) fun d c₁ hd => ?_
    exact yields_ok (List.forall_mem_singleton.mpr hd)
  | succ k ih =>
    unfold declarators
    refine yields_bind (yields_within (recognises_declarator hg inBody c)) fun d c₁ hd => ?_
    dsimp only
    split
    · exact yields_ok (List.forall_mem_singleton.mpr hd)
    · exact yields_bind (ih _) fun ds c₂ hds => yields_ok (List.forall_mem_cons.mpr ⟨hd, hds⟩)

theorem recognises_variableDeclaration (word : DeclarationWord) (c : Cursor) :
    Yields Recognised (variableDeclaration g inBody n word c) := by
  unfold variableDeclaration
  exact yields_bind (recognises_declarators hg inBody n _) fun ds c₁ hds => yields_ok (recognised_node nofun hds)

theorem recognises_block (c : Cursor) : Yields Recognised (block (g.statement inBody) n c) := by
  intro e c' h
  obtain ⟨span, body, rfl, hbody⟩ := yields_block (hg.statement inBody) n c e c' h
  exact recognised_node nofun hbody

theorem recognises_functionDeclaration (c : Cursor) : Yields Recognised (functionDeclaration g n c) := by
  have hparts : ∀ c, Yields (fun pb => pb.2.Recognised) (paramsAndBody g n c) := by
    intro c
    unfold paramsAndBody
    refine yields_after fun opened c₁ => ?_
    refine yields_after fun ps c₂ => ?_
    refine yields_after fun _ c₃ => ?_
    exact yields_bind (recognises_block hg true n c₃) fun body c₄ hb => yields_ok hb
  have hnamed : ∀ c, Yields (fun r => r.2.2.Recognised) (namedFunction g n c) := by
    intro c
    unfold namedFunction
    refine yields_after fun id c₁ => ?_
    exact yields_bind (hparts c₁) fun pb c₂ hpb => yields_ok hpb
  unfold functionDeclaration
  refine yields_bind (yields_within (hnamed _)) fun r c₁ hr => ?_
  have hid (id : Param) : (Node.ident id.span id.name).Recognised := recognised_leaf nofun rfl
  exact yields_ok (recognised_node nofun (by simp [children, hid, hr]))

theorem recognises_returnStatement (c : Cursor) : Yields Recognised (returnStatement g inBody c) := by
  have hargument : ∀ c, Yields (fun a => ∀ e ∈ a.toList, e.Recognised) (returnArgument g inBody c) := by
    intro c
    unfold returnArgument
    split
    · exact yields_ok nofun
    · exact yields_bind (hg.expression inBody _) fun e c₁ he => yields_ok (List.forall_mem_singleton.mpr he)
  unfold returnStatement
  dsimp only
  split
  · exact yields_bind (hargument _) fun argument c₁ ha => yields_ok (recognised_node nofun ha)
  · exact yields_fail

theorem recognises_expressionStatement (c : Cursor) : Yields Recognised (expressionStatement g inBody n c) := by
  unfold expressionStatement
  refine yields_bind (recognises_expressionAt hg inBody n c) fun e c₁ he => ?_
  exact yields_ok (recognised_node nofun (List.forall_mem_singleton.mpr he))

omit hg in
theorem skippedKind_recognised {k : Keyword} {kind : String} (h : skippedKind? k = some kind) : kind ∈ recognisedKinds := by
  unfold skippedKind? at h
  split at h <;> cases h <;> decide

theorem recognises_statementAt (c : Cursor) : Yields Recognised (statementAt g inBody n c) := by
  have hkeyword (k : Keyword) : Yields Recognised (keywordStatement g inBody n k c) := by
    unfold keywordStatement
    split
    · exact recognises_variableDeclaration hg inBody n .var c
    · exact recognises_variableDeclaration hg inBody n .letWord c
    · exact recognises_variableDeclaration hg inBody n .const c
    · exact recognises_functionDeclaration hg n c
    · exact recognises_returnStatement hg inBody c
    · split
      · rename_i kind hkind
        exact recognises_skipFrom n (skippedKind_recognised hkind) c.span [] c
      · exact recognises_expressionStatement hg inBody n c
  unfold statementAt
  split
  · exact hkeyword _
  · exact recognises_block hg inBody n c
  · exact yields_ok (recognised_leaf nofun rfl)
  · exact recognises_expressionStatement hg inBody n c

end

/-! ## Programs -/

theorem ofDepth_recognises (n : Nat) : (ofDepth n).Recognises := by
  induction n with
  | zero => exact ⟨fun _ _ => yields_fail, fun _ _ => yields_fail, fun _ _ => yields_fail, fun _ _ => yields_fail⟩
  | succ n ih =>
    constructor <;> intro inBody c <;> simp only [ofDepth, next, Stack.atLevel_eq]
    · exact recognises_expressionAt ih inBody n c
    · exact recognises_exponentAt ih inBody n c
    · exact recognises_unaryAt ih inBody n c
    · exact recognises_statementAt ih inBody n c

theorem recognises_program (n : Nat) (c : Cursor) : Yields Recognised (program n c) := by
  unfold program
  refine yields_bind (yields_programStatements ((ofDepth_recognises n).statement false) n c) fun body c₁ hb => ?_
  exact yields_ok (recognised_node nofun hb)

end Grammar

/-- What is only recognised in a tree that was read is of a known kind. -/
theorem parse_recognised {source : String} {tree : Node} (h : parse source = .ok tree) : tree.Recognised := by
  obtain ⟨ts, -, hread⟩ := parse_ok h
  obtain ⟨c, hprogram⟩ := parseTokens_ok hread
  exact Grammar.recognises_program _ _ tree c hprogram

end Treewalk
