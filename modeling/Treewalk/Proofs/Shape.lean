/-
  Treewalk.Proofs.Shape — the shapes of the trees that the parser builds.

  `IsExpression`, `IsDeclarator`, `IsStatement` and `IsProgram` say which nodes may stand where: no
  statement inside an expression, a declarator only in a variable declaration and with an identifier
  for its name, a `return` only inside a function, a block as the body of a function.

  Proved: every tree that is read is well-shaped (`parse_isProgram`). Each parsing function is shown
  to yield its shape from what the grammar one level further in yields (`Grammar.Shaped`), and the
  levels are tied together by induction.
-/

import Mathlib.Data.List.Basic
import Treewalk.Grammar.Program

namespace Treewalk

namespace Node

/-- Nodes that stand where a value is due. -/
inductive IsExpression : Node → Prop
  | binary {span : Span} {op : BinaryOp} {left right : Node} :
      IsExpression left → IsExpression right → IsExpression (.binary span op left right)
  | ident {span : Span} {name : String} : IsExpression (.ident span name)
  | number {span : Span} {x : Float} : IsExpression (.number span x)
  | string {span : Span} {s : String} : IsExpression (.string span s)
  | bool {span : Span} {b : Bool} : IsExpression (.bool span b)
  | null {span : Span} : IsExpression (.null span)
  | this {span : Span} : IsExpression (.this span)
  | array {span : Span} {elements : List Node} :
      (∀ e ∈ elements, IsExpression e) → IsExpression (.array span elements)
  | dotted {span at_ : Span} {object : Node} {name : String} :
      IsExpression object → IsExpression (.member span object (.ident at_ name) false)
  | computed {span : Span} {object property : Node} :
      IsExpression object → IsExpression property → IsExpression (.member span object property true)
  | call {span : Span} {callee : Node} {arguments : List Node} :
      IsExpression callee → (∀ a ∈ arguments, IsExpression a) → IsExpression (.call span callee arguments)
  | unsupported {span : Span} {kind : String} : IsExpression (.unsupported span kind)

inductive IsDeclarator : Node → Prop
  | plain {span at_ : Span} {name : String} : IsDeclarator (.declarator span (.ident at_ name) none)
  | initialized {span at_ : Span} {name : String} {init : Node} :
      IsExpression init → IsDeclarator (.declarator span (.ident at_ name) (some init))

/-- Statements. The flag says whether a function is around. -/
inductive IsStatement : Bool → Node → Prop
  | declaration {inBody : Bool} {span : Span} {word : DeclarationWord} {declarators : List Node} :
      declarators ≠ [] → (∀ d ∈ declarators, IsDeclarator d) → IsStatement inBody (.variables span word declarators)
  | function {inBody : Bool} {span at_ blockSpan : Span} {name : String} {params : List Param} {body : List Node} :
      (∀ n ∈ body, IsStatement true n) →
        IsStatement inBody (.function span (.ident at_ name) params (.block blockSpan body))
  | returning {span : Span} {argument : Option Node} :
      (∀ e ∈ argument, IsExpression e) → IsStatement true (.returning span argument)
  | block {inBody : Bool} {span : Span} {body : List Node} :
      (∀ n ∈ body, IsStatement inBody n) → IsStatement inBody (.block span body)
  | expression {inBody : Bool} {span : Span} {e : Node} :
      IsExpression e → IsStatement inBody (.expression span e)
  | empty {inBody : Bool} {span : Span} : IsStatement inBody (.empty span)
  | unsupported {inBody : Bool} {span : Span} {kind : String} : IsStatement inBody (.unsupported span kind)

inductive IsProgram : Node → Prop
  | program {span : Span} {body : List Node} :
      (∀ n ∈ body, IsStatement false n) → IsProgram (.program span body)

/-! ## Where nodes stand -/

/-- The nodes below that are evaluated in the node's own scope: all but the body of a function. -/
def inScope : Node → List Node
  | .function _ id _ _ => [id]
  | n => n.children

/-- `Located tree path n`: the node `n` stands in `tree` inside the functions `path`, innermost first. -/
inductive Located (tree : Node) : List Node → Node → Prop
  | root : Located tree [] tree
  | part {path : List Node} {n d : Node} : Located tree path n → d ∈ n.inScope → Located tree path d
  | body {path : List Node} {span : Span} {id : Node} {params : List Param} {body : Node} :
      Located tree path (.function span id params body) → Located tree (.function span id params body :: path) body

/-- The parts of an expression are expressions. -/
theorem IsExpression.of_mem_inScope {n d : Node} (h : n.IsExpression) (hd : d ∈ n.inScope) : d.IsExpression := by
  cases h with
  | binary hl hr =>
    rcases List.mem_pair.mp hd with rfl | rfl
    · exact hl
    · exact hr
  | array hes => exact hes d hd
  | dotted ho =>
    rcases List.mem_pair.mp hd with rfl | rfl
    · exact ho
    · exact .ident
  | computed ho hp =>
    rcases List.mem_pair.mp hd with rfl | rfl
    · exact ho
    · exact hp
  | call hc has =>
    rcases List.mem_cons.mp hd with rfl | hd
    · exact hc
    · exact has d hd
  | ident | number | string | bool | null | this | unsupported => cases hd

/-- Nodes of any of the shapes. -/
inductive IsShaped : Node → Prop
  | program {n : Node} : IsProgram n → IsShaped n
  | statement {inBody : Bool} {n : Node} : IsStatement inBody n → IsShaped n
  | declarator {n : Node} : IsDeclarator n → IsShaped n
  | expression {n : Node} : IsExpression n → IsShaped n

theorem IsStatement.of_mem_inScope {inBody : Bool} {n d : Node} (h : n.IsStatement inBody) (hd : d ∈ n.inScope) :
    d.IsShaped := by
  cases h with
  | declaration _ hds => exact .declarator (hds d hd)
  | function _ =>
    rw [List.mem_singleton.mp hd]
    exact .expression .ident
  | returning harg =>
    exact .expression (harg d (Option.mem_toList.mp hd))
  | block hb => exact .statement (hb d hd)
  | expression he =>
    rw [List.mem_singleton.mp hd]
    exact .expression he
  | empty | unsupported => cases hd

theorem IsDeclarator.of_mem_inScope {n d : Node} (h : n.IsDeclarator) (hd : d ∈ n.inScope) : d.IsExpression := by
  cases h with
  | plain =>
    rw [List.mem_singleton.mp hd]
    exact .ident
  | initialized hi =>
    rcases List.mem_pair.mp hd with rfl | rfl
    · exact .ident
    · exact hi

namespace IsShaped

theorem of_mem_inScope {n d : Node} (h : n.IsShaped) (hd : d ∈ n.inScope) : d.IsShaped := by
  cases h with
  | program h =>
    cases h with
    | program hb => exact .statement (hb d hd)
  | statement h => exact h.of_mem_inScope hd
  | declarator h => exact .expression (h.of_mem_inScope hd)
  | expression h => exact .expression (h.of_mem_inScope hd)

theorem body {span : Span} {id : Node} {params : List Param} {b : Node}
    (h : (Node.function span id params b).IsShaped) : b.IsShaped := by
  cases h with
  | statement h =>
    cases h with
    | function hb => exact .statement (.block hb)
  | program h | declarator h | expression h => cases h

/-- What a declared name is initialized with is an expression. -/
theorem init {span : Span} {id e : Node} (h : (Node.declarator span id (some e)).IsShaped) : e.IsExpression := by
  cases h with
  | declarator h =>
    cases h with
    | initialized he => exact he
  | program h | statement h | expression h => cases h

theorem of_located {tree n : Node} {path : List Node} (ht : tree.IsShaped) (h : tree.Located path n) : n.IsShaped := by
  induction h with
  | root => exact ht
  | part _ hd ih => exact ih.of_mem_inScope hd
  | body _ ih => exact ih.body

end IsShaped

end Node

open Node

namespace Grammar

/-! ## What parsers yield -/

/-- Whatever the parser reads satisfies `P`. -/
def Yields {α : Type} (P : α → Prop) (r : Parsed (α × Cursor)) : Prop := ∀ a c, r = .ok (a, c) → P a

section
variable {α β : Type} {P : α → Prop} {Q : β → Prop}

theorem yields_ok {a : α} {c : Cursor} (h : P a) : Yields P (.ok (a, c)) := by
  intro _ _ he
  cases he
  exact h

theorem yields_fail {cause : ParseCause} {span : Span} : Yields P (fail cause span) := by
  intro _ _ he
  cases he

theorem yields_within {context : Context} {r : Parsed (α × Cursor)} (h : Yields P r) :
    Yields P (within context r) := by
  intro a c he
  cases r with
  | error e => cases he
  | ok x =>
    cases he
    exact h a c rfl

theorem yields_bind {r : Parsed (α × Cursor)} {f : α × Cursor → Parsed (β × Cursor)} (h : Yields P r)
    (hf : ∀ a c, P a → Yields Q (f (a, c))) : Yields Q (r >>= f) := by
  intro b c he
  cases r with
  | error e => cases he
  | ok x => exact hf x.1 x.2 (h x.1 x.2 rfl) b c he

/-- A step whose result does not matter. -/
theorem yields_after {r : Parsed (α × Cursor)} {f : α × Cursor → Parsed (β × Cursor)}
    (hf : ∀ a c, Yields Q (f (a, c))) : Yields Q (r >>= f) :=
  yields_bind (P := fun _ => True) (fun _ _ _ => trivial) fun a c _ => hf a c

end

/-- The parsers of a level yield the shapes that they are meant for. -/
structure Shaped (g : Grammar) : Prop where
  expression : ∀ inBody c, Yields IsExpression (g.expression inBody c)
  exponent : ∀ inBody c, Yields IsExpression (g.exponent inBody c)
  unary : ∀ inBody c, Yields IsExpression (g.unary inBody c)
  statement : ∀ inBody c, Yields (IsStatement inBody) (g.statement inBody c)

/-! ## Lists -/

theorem yields_commaList {item : Cursor → Parsed (Node × Cursor)} {P : Node → Prop} (h : ∀ c, Yields P (item c))
    (close : Punct) (n : Nat) (c : Cursor) : Yields (fun es => ∀ e ∈ es, P e) (commaList item close n c) := by
  induction n generalizing c with
  | zero => exact yields_ok (by simp)
  | succ n ih =>
    unfold commaList
    split
    · exact yields_ok (by simp)
    · refine yields_bind (h c) fun e c₁ he => ?_
      dsimp only
      split
      · exact yields_ok (by simpa using he)
      · refine yields_bind (ih _) fun es c₂ hes => ?_
        exact yields_ok (List.forall_mem_cons.mpr ⟨he, hes⟩)

theorem yields_statements {statement : Cursor → Parsed (Node × Cursor)} {P : Node → Prop}
    (h : ∀ c, Yields P (statement c)) (n : Nat) (c : Cursor) :
    Yields (fun ss => ∀ s ∈ ss, P s) (statements statement n c) := by
  induction n generalizing c with
  | zero => exact yields_ok (by simp)
  | succ n ih =>
    unfold statements
    split
    · exact yields_ok (by simp)
    · refine yields_bind (h c) fun s c₁ hs => ?_
      refine yields_bind (ih _) fun ss c₂ hss => ?_
      exact yields_ok (List.forall_mem_cons.mpr ⟨hs, hss⟩)

/-- A block holds statements of the kind it was read with. -/
theorem yields_block {statement : Cursor → Parsed (Node × Cursor)} {P : Node → Prop}
    (h : ∀ c, Yields P (statement c)) (n : Nat) (c : Cursor) :
    Yields (fun b => ∃ span body, b = .block span body ∧ ∀ s ∈ body, P s) (block statement n c) := by
  unfold block
  refine yields_after fun opened c₁ => ?_
  refine yields_bind (yields_statements h n c₁) fun body c₂ hbody => ?_
  refine yields_after fun _ c₃ => ?_
  exact yields_ok ⟨_, body, rfl, hbody⟩

/-! ## Skipped constructs -/

theorem yields_skipped (kind : String) (start : Span) (c : Cursor) :
    Yields (fun n => ∃ span, n = .unsupported span kind) (skipped kind start c) :=
  yields_ok ⟨_, rfl⟩

theorem yields_skippedAtEnd (kind : String) (start : Span) (opened : List (Punct × Span)) (c : Cursor) :
    Yields (fun n => ∃ span, n = .unsupported span kind) (skippedAtEnd kind start opened c) := by
  unfold skippedAtEnd
  split
  · exact yields_within yields_fail
  · exact yields_skipped kind start c

theorem yields_skipFrom (kind : String) (start : Span) (n : Nat) (opened : List (Punct × Span)) (c : Cursor) :
    Yields (fun n => ∃ span, n = .unsupported span kind) (skipFrom kind start n opened c) := by
  fun_induction skipFrom kind start n opened c with
  | case1 | case2 => exact yields_skippedAtEnd kind start _ _
  | case4 | case5 | case7 => exact yields_skipped kind start _
  | case3 | case6 | case8 | case9 => assumption

theorem yields_skipObjectFrom (start : Span) (n depth : Nat) (c : Cursor) :
    Yields (fun n => ∃ span, n = .unsupported span "ObjectExpression") (skipObjectFrom start n depth c) := by
  fun_induction skipObjectFrom start n depth c with
  | case1 | case2 => exact yields_within yields_fail
  | case4 => exact yields_skipped _ start _
  | case3 | case5 | case6 | case7 => assumption

section
variable {g : Grammar} (hg : g.Shaped) (inBody : Bool) (n : Nat)

/-! ## Primary expressions -/

theorem yields_propertyName (c : Cursor) :
    Yields (fun e => ∃ span name, e = .ident span name) (propertyName c) := by
  unfold propertyName
  split
  · exact yields_ok ⟨_, _, rfl⟩
  · exact yields_ok ⟨_, _, rfl⟩
  · exact yields_fail

include hg

theorem yields_arguments (c : Cursor) : Yields (fun es => ∀ e ∈ es, IsExpression e) (arguments g inBody n c) := by
  unfold arguments
  refine yields_after fun opened c₁ => ?_
  refine yields_bind (yields_commaList (hg.expression inBody) .rparen n c₁) fun es c₂ hes => ?_
  exact yields_after fun _ c₃ => yields_ok hes

theorem yields_parenthesized (c : Cursor) : Yields IsExpression (parenthesized g inBody c) := by
  unfold parenthesized
  refine yields_bind (yields_within (hg.expression inBody _)) fun e c₁ he => ?_
  exact yields_after fun _ c₂ => yields_ok he

theorem yields_arrayLiteral (c : Cursor) : Yields IsExpression (arrayLiteral g inBody n c) := by
  unfold arrayLiteral
  refine yields_bind (yields_within (yields_commaList (hg.expression inBody) .rbracket n _)) fun es c₁ hes => ?_
  exact yields_after fun _ c₂ => yields_ok (.array hes)

omit hg in
theorem yields_functionExpression (c : Cursor) : Yields IsExpression (functionExpression g n c) := by
  unfold functionExpression
  exact yields_after fun _ c₁ => yields_ok .unsupported

omit hg in
theorem yields_newExpression (c : Cursor) : Yields IsExpression (newExpression g inBody n c) := by
  unfold newExpression
  refine yields_after fun _ c₁ => ?_
  refine yields_after fun _ c₂ => ?_
  dsimp only
  split
  · exact yields_after fun _ c₃ => yields_ok .unsupported
  · exact yields_after fun _ c₃ => yields_ok .unsupported

theorem yields_primaryAt (c : Cursor) : Yields IsExpression (primaryAt g inBody n c) := by
  unfold primaryAt
  split
  · exact yields_ok .number
  · exact yields_ok .string
  · exact yields_ok .ident
  · exact yields_ok .bool
  · exact yields_ok .bool
  · exact yields_ok .null
  · exact yields_ok .this
  · exact yields_parenthesized hg inBody c
  · exact yields_arrayLiteral hg inBody n c
  · intro e c' he
    obtain ⟨span, rfl⟩ := yields_skipObjectFrom _ _ _ _ e c' he
    exact .unsupported
  · exact yields_functionExpression n c
  · exact yields_newExpression inBody n c
  · exact yields_fail

/-! ## Member access and calls -/

omit hg in
theorem yields_dotMember {object : Node} (ho : IsExpression object) (c : Cursor) :
    Yields IsExpression (dotMember object c) := by
  unfold dotMember
  refine yields_bind (yields_within (yields_propertyName _)) ?_
  rintro _ c₁ ⟨span, name, rfl⟩
  exact yields_ok (.dotted ho)

theorem yields_computedMember {object : Node} (ho : IsExpression object) (c : Cursor) :
    Yields IsExpression (computedMember g inBody object c) := by
  unfold computedMember
  refine yields_bind (yields_within (hg.expression inBody _)) fun property c₁ hp => ?_
  exact yields_after fun _ c₂ => yields_ok (.computed ho hp)

theorem yields_callOf {callee : Node} (hc : IsExpression callee) (c : Cursor) :
    Yields IsExpression (callOf g inBody n callee c) := by
  unfold callOf
  refine yields_bind (yields_within (yields_arguments hg inBody n c)) fun as c₁ has => ?_
  exact yields_ok (.call hc has)

theorem yields_suffixes (k : Nat) {e : Node} (he : IsExpression e) (c : Cursor) :
    Yields IsExpression (suffixes g inBody n k e c) := by
  induction k generalizing e c with
  | zero => exact yields_ok he
  | succ k ih =>
    unfold suffixes
    split
    · exact yields_bind (yields_dotMember he c) fun e' c₁ he' => ih he' c₁
    · exact yields_bind (yields_computedMember hg inBody he c) fun e' c₁ he' => ih he' c₁
    · exact yields_bind (yields_callOf hg inBody n he c) fun e' c₁ he' => ih he' c₁
    · exact yields_ok he

theorem yields_postfixAt (c : Cursor) : Yields IsExpression (postfixAt g inBody n c) := by
  unfold postfixAt
  exact yields_bind (yields_primaryAt hg inBody n c) fun e c₁ he => yields_suffixes hg inBody n n he c₁

/-! ## Operators -/

theorem yields_unaryAt (c : Cursor) : Yields IsExpression (unaryAt g inBody n c) := by
  unfold unaryAt
  split
  · exact yields_after fun e c₁ => yields_ok .unsupported
  · exact yields_postfixAt hg inBody n c

theorem yields_exponentAt (c : Cursor) : Yields IsExpression (exponentAt g inBody n c) := by
  unfold exponentAt
  refine yields_bind (yields_unaryAt hg inBody n c) fun base c₁ hbase => ?_
  dsimp only
  split
  · exact yields_ok hbase
  · refine yields_bind (hg.exponent inBody _) fun power c₂ hpower => ?_
    exact yields_ok (.binary hbase hpower)

/-- A token that joins two expressions makes an expression of them. -/
def Joins.Sound (joins : Joins) : Prop :=
  ∀ {tag join left right}, joins tag = some join → IsExpression left → IsExpression right →
    IsExpression (join left right)

omit hg in
theorem productJoins_sound : Joins.Sound productJoins := by
  intro tag join left right h hl hr
  unfold productJoins at h
  split at h <;> cases h <;> exact .binary hl hr

omit hg in
theorem sumJoins_sound : Joins.Sound sumJoins := by
  intro tag join left right h hl hr
  unfold sumJoins at h
  split at h <;> cases h <;> exact .binary hl hr

omit hg in
theorem relationJoins_sound : Joins.Sound relationJoins := by
  intro tag join left right h hl hr
  unfold relationJoins at h
  split at h <;> cases h <;> exact .binary hl hr

omit hg in
theorem equalityJoins_sound : Joins.Sound equalityJoins := by
  intro tag join left right h hl hr
  unfold equalityJoins at h
  split at h <;> cases h <;> exact .binary hl hr

omit hg in
theorem andJoins_sound : Joins.Sound andJoins := by
  intro tag join left right h _ _
  unfold andJoins at h
  split at h <;> cases h
  exact .unsupported

omit hg in
theorem orJoins_sound : Joins.Sound orJoins := by
  intro tag join left right h _ _
  unfold orJoins at h
  split at h <;> cases h
  exact .unsupported

omit hg in
theorem yields_chain {joins : Joins} (hj : joins.Sound) {operand : Cursor → Parsed (Node × Cursor)}
    (ho : ∀ c, Yields IsExpression (operand c)) (k : Nat) (c : Cursor) :
    Yields IsExpression (chain joins operand k c) := by
  unfold chain
  refine yields_bind (ho c) fun left c₁ hl => ?_
  induction k generalizing left c₁ with
  | zero => exact yields_ok hl
  | succ k ih =>
    dsimp only
    unfold chainFrom
    split
    · exact yields_ok hl
    · rename_i join hjoin
      exact yields_bind (ho _) fun right c₂ hr => ih _ c₂ (hj hjoin hl hr)

theorem yields_productAt (c : Cursor) : Yields IsExpression (productAt g inBody n c) :=
  yields_chain productJoins_sound (yields_exponentAt hg inBody n) n c

theorem yields_sumAt (c : Cursor) : Yields IsExpression (sumAt g inBody n c) :=
  yields_chain sumJoins_sound (yields_productAt hg inBody n) n c

theorem yields_relationAt (c : Cursor) : Yields IsExpression (relationAt g inBody n c) :=
  yields_chain relationJoins_sound (yields_sumAt hg inBody n) n c

theorem yields_equalityAt (c : Cursor) : Yields IsExpression (equalityAt g inBody n c) :=
  yields_chain equalityJoins_sound (yields_relationAt hg inBody n) n c

theorem yields_andAt (c : Cursor) : Yields IsExpression (andAt g inBody n c) :=
  yields_chain andJoins_sound (yields_equalityAt hg inBody n) n c

theorem yields_orAt (c : Cursor) : Yields IsExpression (orAt g inBody n c) :=
  yields_chain orJoins_sound (yields_andAt hg inBody n) n c

theorem yields_conditionalAt (c : Cursor) : Yields IsExpression (conditionalAt g inBody n c) := by
  unfold conditionalAt
  refine yields_bind (yields_orAt hg inBody n c) fun test c₁ htest => ?_
  dsimp only
  split
  · exact yields_ok htest
  · refine yields_after fun _ c₂ => ?_
    refine yields_after fun _ c₃ => ?_
    exact yields_after fun _ c₄ => yields_ok .unsupported

theorem yields_expressionAt (c : Cursor) : Yields IsExpression (expressionAt g inBody n c) := by
  unfold expressionAt
  refine yields_bind (yields_conditionalAt hg inBody n c) fun left c₁ hl => ?_
  dsimp only
  split
  · exact yields_ok hl
  · exact yields_after fun _ c₂ => yields_ok .unsupported

/-! ## Statements -/

theorem yields_declarator (c : Cursor) : Yields IsDeclarator (declarator g inBody c) := by
  unfold declarator
  refine yields_after fun id c₁ => ?_
  dsimp only
  split
  · exact yields_ok .plain
  · exact yields_bind (hg.expression inBody _) fun e c₂ he => yields_ok (.initialized he)

theorem yields_declarators (k : Nat) (c : Cursor) :
    Yields (fun ds => ds ≠ [] ∧ ∀ d ∈ ds, IsDeclarator d) (declarators g inBody k c) := by
  induction k generalizing c with
  | zero =>
    unfold declarators
    refine yields_bind (yields_within (yields_declarator hg inBody c)) fun d c₁ hd => ?_
    exact yields_ok ⟨by simp, by simpa using hd⟩
  | succ k ih =>
    unfold declarators
    refine yields_bind (yields_within (yields_declarator hg inBody c)) fun d c₁ hd => ?_
    dsimp only
    split
    · exact yields_ok ⟨by simp, by simpa using hd⟩
    · refine yields_bind (ih _) fun ds c₂ hds => ?_
      exact yields_ok ⟨by simp, List.forall_mem_cons.mpr ⟨hd, hds.2⟩⟩

theorem yields_variableDeclaration (word : DeclarationWord) (c : Cursor) :
    Yields (IsStatement inBody) (variableDeclaration g inBody n word c) := by
  unfold variableDeclaration
  refine yields_bind (yields_declarators hg inBody n _) fun ds c₁ hds => ?_
  exact yields_ok (.declaration hds.1 hds.2)

theorem yields_paramsAndBody (c : Cursor) :
    Yields (fun pb => ∃ span body, pb.2 = .block span body ∧ ∀ s ∈ body, IsStatement true s) (paramsAndBody g n c) := by
  unfold paramsAndBody
  refine yields_after fun opened c₁ => ?_
  refine yields_after fun ps c₂ => ?_
  refine yields_after fun _ c₃ => ?_
  exact yields_bind (yields_block (hg.statement true) n c₃) fun body c₄ hb => yields_ok hb

theorem yields_functionDeclaration (c : Cursor) : Yields (IsStatement inBody) (functionDeclaration g n c) := by
  have hnamed : ∀ c, Yields (fun r => ∃ span body, r.2.2 = .block span body ∧ ∀ s ∈ body, IsStatement true s)
      (namedFunction g n c) := by
    intro c
    unfold namedFunction
    refine yields_after fun id c₁ => ?_
    exact yields_bind (yields_paramsAndBody hg n c₁) fun pb c₂ hpb => yields_ok hpb
  unfold functionDeclaration
  refine yields_bind (yields_within (hnamed _)) ?_
  rintro ⟨id, ps, block⟩ c₁ ⟨span, body, hblock, hbody⟩
  dsimp only at hblock ⊢
  rw [hblock]
  exact yields_ok (.function hbody)

theorem yields_returnStatement (c : Cursor) : Yields (IsStatement inBody) (returnStatement g inBody c) := by
  unfold returnStatement
  dsimp only
  split
  · rename_i hb
    subst hb
    have harg : Yields (fun a => ∀ e ∈ a, IsExpression e) (returnArgument g true c.advance) := by
      unfold returnArgument
      split
      · exact yields_ok (by simp)
      · exact yields_bind (hg.expression true _) fun e c₁ he => yields_ok (by simpa using he)
    exact yields_bind harg fun argument c₁ ha => yields_ok (.returning ha)
  · exact yields_fail

theorem yields_expressionStatement (c : Cursor) : Yields (IsStatement inBody) (expressionStatement g inBody n c) := by
  unfold expressionStatement
  exact yields_bind (yields_expressionAt hg inBody n c) fun e c₁ he => yields_ok (.expression he)

theorem yields_keywordStatement (k : Keyword) (c : Cursor) :
    Yields (IsStatement inBody) (keywordStatement g inBody n k c) := by
  unfold keywordStatement
  split
  · exact yields_variableDeclaration hg inBody n .var c
  · exact yields_variableDeclaration hg inBody n .letWord c
  · exact yields_variableDeclaration hg inBody n .const c
  · exact yields_functionDeclaration hg inBody n c
  · exact yields_returnStatement hg inBody c
  · split
    · intro s c' hs
      obtain ⟨span, rfl⟩ := yields_skipFrom _ _ _ _ _ s c' hs
      exact .unsupported
    · exact yields_expressionStatement hg inBody n c

theorem yields_statementAt (c : Cursor) : Yields (IsStatement inBody) (statementAt g inBody n c) := by
  unfold statementAt
  split
  · exact yields_keywordStatement hg inBody n _ c
  · intro s c' hs
    obtain ⟨span, body, rfl, hbody⟩ := yields_block (hg.statement inBody) n c s c' hs
    exact .block hbody
  · exact yields_ok .empty
  · exact yields_expressionStatement hg inBody n c

end

/-! ## Programs -/

theorem bottom_shaped : bottom.Shaped :=
  ⟨fun _ _ => yields_fail, fun _ _ => yields_fail, fun _ _ => yields_fail, fun _ _ => yields_fail⟩

theorem next_shaped {g : Grammar} (hg : g.Shaped) (n : Nat) : (g.next n).Shaped := by
  constructor <;> intro inBody c <;> simp only [next, Stack.atLevel_eq]
  · exact yields_expressionAt hg inBody n c
  · exact yields_exponentAt hg inBody n c
  · exact yields_unaryAt hg inBody n c
  · exact yields_statementAt hg inBody n c

theorem ofDepth_shaped (n : Nat) : (ofDepth n).Shaped := by
  induction n with
  | zero => exact bottom_shaped
  | succ n ih => exact next_shaped ih n

theorem yields_programStatements {statement : Cursor → Parsed (Node × Cursor)} {P : Node → Prop}
    (h : ∀ c, Yields P (statement c)) (n : Nat) (c : Cursor) :
    Yields (fun ss => ∀ s ∈ ss, P s) (programStatements statement n c) := by
  induction n generalizing c with
  | zero => exact yields_ok (by simp)
  | succ n ih =>
    unfold programStatements
    split
    · exact yields_ok (by simp)
    · refine yields_bind (h c) fun s c₁ hs => ?_
      refine yields_bind (ih _) fun ss c₂ hss => ?_
      exact yields_ok (List.forall_mem_cons.mpr ⟨hs, hss⟩)

theorem yields_program (n : Nat) (c : Cursor) : Yields IsProgram (program n c) := by
  unfold program
  refine yields_bind (yields_programStatements ((ofDepth_shaped n).statement false) n c) fun body c₁ hb => ?_
  exact yields_ok (.program hb)

end Grammar

/-! ## Trees that are read -/

section
variable {source : String} {ts : List Token} {tree : Node}

theorem parseTokens_ok (h : parseTokens ts = .ok tree) :
    ∃ c, Grammar.program ts.length (Cursor.ofList ts) = .ok (tree, c) := by
  unfold parseTokens at h
  cases hp : Grammar.program ts.length (Cursor.ofList ts) with
  | error e =>
    rw [hp] at h
    cases h
  | ok r =>
    rw [hp] at h
    cases h
    exact ⟨r.2, rfl⟩

theorem exists_parse (h : (parse source).isOk = true) : ∃ tree, parse source = .ok tree := by
  cases hparse : parse source with
  | error e =>
    rw [hparse] at h
    cases h
  | ok tree => exact ⟨tree, rfl⟩

theorem parse_ok (h : parse source = .ok tree) : ∃ ts, lex source = .ok ts ∧ parseTokens ts = .ok tree := by
  unfold parse at h
  split at h
  · cases h
  · rename_i ts hlex
    refine ⟨ts, hlex, ?_⟩
    cases hread : parseTokens ts with
    | error e =>
      rw [hread] at h
      cases h
    | ok t =>
      rw [hread] at h
      cases h
      rfl

theorem parseTokens_isProgram (h : parseTokens ts = .ok tree) : IsProgram tree := by
  obtain ⟨c, hprogram⟩ := parseTokens_ok h
  exact Grammar.yields_program _ _ tree c hprogram

/-- Every tree that is read is well-shaped. -/
theorem parse_isProgram (h : parse source = .ok tree) : IsProgram tree := by
  obtain ⟨ts, -, hread⟩ := parse_ok h
  exact parseTokens_isProgram hread

end

end Treewalk
