/-
  Treewalk.Proofs.WellShaped — what can be relied on in a tree that the parser built.

  `Node.Formed` is the condition on one node: of which kind each child is. In a `WellShaped` tree it
  holds of every node; the rest says the same from the children's side: which kinds of nodes a kind
  may stand below. A `return` stands inside a function, so no statement of the program itself
  completes with one.

  Proved: every tree that is read is well-shaped, and no statement of a program returns
  (`parse_wellShaped`).
-/

import Treewalk.Proofs.Plan

namespace Treewalk

namespace Node

/-! ## Kinds of nodes -/

def isProgram (n : Node) : Bool := n matches .program _ _

def isBlock (n : Node) : Bool := n matches .block _ _

def isDeclarator (n : Node) : Bool := n matches .declarator _ _ _

def isIdent (n : Node) : Bool := n matches .ident _ _

def isUnsupported (n : Node) : Bool := n matches .unsupported _ _

def isStatement (n : Node) : Bool :=
  n matches .variables _ _ _ | .function _ _ _ _ | .returning _ _ | .block _ _ | .expression _ _ | .empty _

def isExpression (n : Node) : Bool :=
  n matches .binary _ _ _ _ | .ident _ _ | .number _ _ | .string _ _ | .bool _ _ | .null _ | .this _ | .array _ _ |
    .member _ _ _ _ | .call _ _ _

/-- An expression, or a construct that is only recognised. -/
def standsForValue (n : Node) : Bool := n.isExpression || n.isUnsupported

/-- A statement, or a construct that is only recognised. -/
def standsForStep (n : Node) : Bool := n.isStatement || n.isUnsupported

/-- The children are of the kinds that the node's own kind asks for. -/
def Formed : Node → Prop
  | .program _ body | .block _ body => ∀ s ∈ body, s.standsForStep = true
  | .variables _ _ ds => ds ≠ [] ∧ ∀ d ∈ ds, d.isDeclarator = true
  | .declarator _ id init => id.isIdent = true ∧ ∀ e ∈ init, e.standsForValue = true
  | .function _ id _ body => id.isIdent = true ∧ body.isBlock = true
  | .returning _ argument => ∀ e ∈ argument, e.standsForValue = true
  | .expression _ e => e.standsForValue = true
  | .binary _ _ l r => l.standsForValue = true ∧ r.standsForValue = true
  | .array _ es => ∀ e ∈ es, e.standsForValue = true
  | .member _ o p computed => o.standsForValue = true ∧ p.standsForValue = true ∧ (computed = false → p.isIdent = true)
  | .call _ f as => f.standsForValue = true ∧ ∀ a ∈ as, a.standsForValue = true
  | .empty _ | .ident _ _ | .number _ _ | .string _ _ | .bool _ _ | .null _ | .this _ | .unsupported _ _ => True

structure WellShaped (tree : Node) : Prop where
  root : tree.isProgram = true
  formed : ∀ d ∈ tree.nodes, d.Formed
  programs : ∀ d ∈ tree.nodes, ∀ c ∈ d.children, c.isProgram = false
  declarators : ∀ d ∈ tree.nodes, ∀ c ∈ d.children, c.isDeclarator = true → ∃ span word ds, d = .variables span word ds
  /-- The body of a function is its last child. -/
  statements : ∀ d ∈ tree.nodes, ∀ c ∈ d.children, c.isStatement = true →
    d.isProgram = true ∨ d.isBlock = true ∨ ∃ span id ps, d = .function span id ps c
  returns : ∀ path span argument, tree.Located path (.returning span argument) → path ≠ []

/-! ## Shapes -/

theorem IsExpression.standsForValue {n : Node} (h : n.IsExpression) : n.standsForValue = true := by
  cases h <;> rfl

theorem IsStatement.standsForStep {inBody : Bool} {n : Node} (h : n.IsStatement inBody) : n.standsForStep = true := by
  cases h <;> rfl

theorem IsDeclarator.isDeclarator {n : Node} (h : n.IsDeclarator) : n.isDeclarator = true := by
  cases h <;> rfl

theorem IsShaped.formed {n : Node} (h : n.IsShaped) : n.Formed := by
  cases h with
  | program h =>
    cases h with
    | program hb => exact fun s hs => (hb s hs).standsForStep
  | statement h =>
    cases h with
    | declaration hne hds => exact ⟨hne, fun d hd => (hds d hd).isDeclarator⟩
    | function _ => exact ⟨rfl, rfl⟩
    | returning harg => exact fun e he => (harg e he).standsForValue
    | block hb => exact fun s hs => (hb s hs).standsForStep
    | expression he => exact he.standsForValue
    | empty | unsupported => trivial
  | declarator h =>
    cases h with
    | plain => exact ⟨rfl, by simp⟩
    | initialized hi => exact ⟨rfl, by simpa using hi.standsForValue⟩
  | expression h =>
    cases h with
    | binary hl hr => exact ⟨hl.standsForValue, hr.standsForValue⟩
    | array hes => exact fun e he => (hes e he).standsForValue
    | dotted ho => exact ⟨ho.standsForValue, rfl, fun _ => rfl⟩
    | computed ho hp => exact ⟨ho.standsForValue, hp.standsForValue, fun h => absurd h (by simp)⟩
    | call hc has => exact ⟨hc.standsForValue, fun a ha => (has a ha).standsForValue⟩
    | ident | number | string | bool | null | this | unsupported => trivial

theorem standsForValue_of_isIdent {n : Node} (h : n.isIdent = true) : n.standsForValue = true := by
  cases n <;> first | rfl | cases h

/-- The children of a formed node, by their kinds. -/
theorem Formed.child : ∀ {d c : Node}, d.Formed → c ∈ d.children →
    (d.isProgram = true ∨ d.isBlock = true) ∧ c.standsForStep = true ∨
    (∃ span word ds, d = .variables span word ds) ∧ c.isDeclarator = true ∨
    (∃ span id ps, d = .function span id ps c) ∧ c.isBlock = true ∨ c.standsForValue = true
  | .program _ _, c, h, hc => .inl ⟨.inl rfl, h c hc⟩
  | .block _ _, c, h, hc => .inl ⟨.inr rfl, h c hc⟩
  | .variables span word ds, c, h, hc => .inr (.inl ⟨⟨span, word, ds, rfl⟩, h.2 c hc⟩)
  | .function span id ps body, c, h, hc => by
    rcases List.mem_pair.mp hc with rfl | rfl
    · exact .inr (.inr (.inr (standsForValue_of_isIdent h.1)))
    · exact .inr (.inr (.inl ⟨⟨span, id, ps, rfl⟩, h.2⟩))
  | .declarator span id init, c, h, hc => by
    refine .inr (.inr (.inr ?_))
    rcases List.mem_cons.mp hc with rfl | hc
    · exact standsForValue_of_isIdent h.1
    · exact h.2 c (Option.mem_toList.mp hc)
  | .returning span argument, c, h, hc => .inr (.inr (.inr (h c (Option.mem_toList.mp hc))))
  | .expression span e, c, h, hc => .inr (.inr (.inr (List.mem_singleton.mp hc ▸ h)))
  | .binary span op l r, c, h, hc => by
    refine .inr (.inr (.inr ?_))
    rcases List.mem_pair.mp hc with rfl | rfl
    · exact h.1
    · exact h.2
  | .array span es, c, h, hc => .inr (.inr (.inr (h c hc)))
  | .member span o p computed, c, h, hc => by
    refine .inr (.inr (.inr ?_))
    rcases List.mem_pair.mp hc with rfl | rfl
    · exact h.1
    · exact h.2.1
  | .call span f as, c, h, hc => by
    refine .inr (.inr (.inr ?_))
    rcases List.mem_cons.mp hc with rfl | hc
    · exact h.1
    · exact h.2 c hc

/-! ## Nodes and their places -/

/-- A node of the tree stands somewhere in it. -/
theorem Located.child {tree n c : Node} {path : List Node} (h : tree.Located path n) (hc : c ∈ n.children) :
    ∃ path, tree.Located path c := by
  by_cases hscope : c ∈ n.inScope
  · exact ⟨path, h.part hscope⟩
  · cases n with
    | function span id ps body =>
      rcases List.mem_pair.mp hc with rfl | rfl
      · exact absurd (List.mem_singleton_self _) hscope
      · exact ⟨_, h.body⟩
    | _ => exact absurd hc hscope

theorem Located.of_mem_nodes {tree n d : Node} {path : List Node} (h : tree.Located path n) (hd : d ∈ n.nodes) :
    ∃ path, tree.Located path d := by
  rw [nodes_eq] at hd
  rcases List.mem_cons.mp hd with rfl | hd
  · exact ⟨path, h⟩
  · obtain ⟨c, hc, hd⟩ := List.mem_flatMap.mp hd
    obtain ⟨path, hpath⟩ := h.child hc
    exact hpath.of_mem_nodes hd
termination_by n.size
decreasing_by exact size_lt_of_mem hc

/-- What stands inside no function. -/
inductive AtTop : Node → Prop
  | program {n : Node} : IsProgram n → AtTop n
  | statement {n : Node} : IsStatement false n → AtTop n
  | declarator {n : Node} : IsDeclarator n → AtTop n
  | expression {n : Node} : IsExpression n → AtTop n

theorem AtTop.of_mem_inScope {n d : Node} (h : n.AtTop) (hd : d ∈ n.inScope) : d.AtTop := by
  cases h with
  | program h =>
    cases h with
    | program hb => exact .statement (hb d hd)
  | statement h =>
    cases h with
    | declaration _ hds => exact .declarator (hds d hd)
    | function _ =>
      obtain rfl := List.mem_singleton.mp hd
      exact .expression .ident
    | block hb => exact .statement (hb d hd)
    | expression he =>
      obtain rfl := List.mem_singleton.mp hd
      exact .expression he
    | empty | unsupported => cases hd
  | declarator h => exact .expression (h.of_mem_inScope hd)
  | expression h => exact .expression (h.of_mem_inScope hd)

theorem AtTop.of_located {tree n : Node} (ht : tree.AtTop) {path : List Node} (h : tree.Located path n)
    (hpath : path = []) : n.AtTop := by
  induction h with
  | root => exact ht
  | part _ hd ih => exact (ih hpath).of_mem_inScope hd
  | body _ _ => cases hpath

theorem IsProgram.wellShaped {tree : Node} (h : IsProgram tree) : tree.WellShaped := by
  have hformed (d : Node) (hd : d ∈ tree.nodes) : d.Formed := by
    obtain ⟨path, hpath⟩ := Located.root.of_mem_nodes hd
    exact (IsShaped.of_located (.program h) hpath).formed
  refine ⟨?_, hformed, ?_, ?_, ?_, ?_⟩
  · cases h
    rfl
  · intro d hd c hc
    obtain ⟨-, hkind⟩ | ⟨-, hkind⟩ | ⟨-, hkind⟩ | hkind := (hformed d hd).child hc
    all_goals cases c <;> first | rfl | cases hkind
  · intro d hd c hc hdecl
    obtain ⟨-, hkind⟩ | ⟨hd, -⟩ | ⟨-, hkind⟩ | hkind := (hformed d hd).child hc
    · cases c <;> first | (cases hdecl; done) | cases hkind
    · exact hd
    · cases c <;> first | (cases hdecl; done) | cases hkind
    · cases c <;> first | (cases hdecl; done) | cases hkind
  · intro d hd c hc hstmt
    obtain ⟨hd, -⟩ | ⟨-, hkind⟩ | ⟨hd, -⟩ | hkind := (hformed d hd).child hc
    · exact hd.elim .inl (fun hd => .inr (.inl hd))
    · cases c <;> first | (cases hstmt; done) | cases hkind
    · exact .inr (.inr hd)
    · cases c <;> first | (cases hstmt; done) | cases hkind
  · intro path span argument hloc hpath
    cases AtTop.of_located (.program h) hloc hpath with
    | program h | statement h | declarator h | expression h => cases h

end Node

open Node

/-! ## Completion -/

section
variable {ω : Type}

/-- The action does not complete with a `return`. -/
def Proceeds (a : Action ω Flow) : Prop := ∀ w flow w', a w = .ok flow w' → flow.isReturn = false

theorem proceeds_pure {flow : Flow} (h : flow.isReturn = false) : Proceeds (pure flow : Action ω Flow) := by
  rintro w _ _ ⟨⟩
  exact h

theorem proceeds_bind {α : Type} {a : Action ω α} {f : α → Action ω Flow} (h : ∀ v, Proceeds (f v)) : Proceeds (a >>= f) := by
  intro w flow w' heq
  cases ha : a w with
  | ok v w₁ =>
    rw [Action.bind_ok ha] at heq
    exact h v w₁ flow w' heq
  | error e w₁ =>
    rw [Action.bind_error ha] at heq
    cases heq

theorem proceeds_located {a : Action ω Flow} (h : Proceeds a) (span : Span) : Proceeds (Action.located span a) := by
  intro w flow w' heq
  cases ha : a w with
  | ok v w₁ =>
    rw [Action.located_ok span ha] at heq
    cases heq
    exact h w flow w' ha
  | error e w₁ =>
    rw [Action.located_error span ha] at heq
    cases heq

variable [World ω] (m : Machine) (inv : Invoke ω)

theorem proceeds_evalBlock {body : List Node} {scope : ScopeId}
    (h : ∀ n ∈ body, Proceeds (Eval.eval m inv n scope)) (last : Value) : Proceeds (Eval.evalBlock m inv body last scope) := by
  induction body generalizing last with
  | nil =>
    rw [Eval.evalBlock]
    exact proceeds_pure rfl
  | cons n ns ih =>
    rw [Eval.evalBlock]
    intro w flow w' heq
    obtain ⟨hn, hns⟩ := List.forall_mem_cons.mp h
    cases hrun : Eval.eval m inv n scope w with
    | error e w₁ =>
      rw [Action.bind_error hrun] at heq
      cases heq
    | ok first w₁ =>
      rw [Action.bind_ok hrun] at heq
      cases first with
      | normal v => exact ih hns v w₁ flow w' heq
      | returned v => cases hn w _ w₁ hrun

/-- A statement outside all functions does not return. -/
theorem Node.IsStatement.proceeds {inBody : Bool} {n : Node} (h : IsStatement inBody n) (htop : inBody = false) (scope : ScopeId) :
    Proceeds (Eval.eval m inv n scope) := by
  induction h with
  | declaration _ _ | expression _ =>
    rw [Eval.eval]
    exact proceeds_located (proceeds_bind fun _ => proceeds_pure rfl) _
  | function _ _ =>
    rw [Eval.eval]
    refine proceeds_located ?_ _
    exact proceeds_bind fun _ => proceeds_bind fun _ => proceeds_bind fun _ => proceeds_pure rfl
  | returning _ => cases htop
  | block _ ih =>
    rw [Eval.eval]
    exact proceeds_located (proceeds_evalBlock m inv (fun n hn => ih n hn htop) .undefined) _
  | empty =>
    rw [Eval.eval]
    exact proceeds_pure rfl
  | unsupported =>
    rw [Eval.eval]
    refine proceeds_located ?_ _
    rintro w flow w' ⟨⟩

end

/-- Every tree that is read is well-shaped, and no statement of a program returns. -/
theorem parse_wellShaped {source : String} {tree : Node} (h : parse source = .ok tree) :
    tree.WellShaped ∧ ∀ (ω : Type) [World ω] (m : Machine) (s : Node), s ∈ tree.children →
      ∀ (scope : ScopeId) (w : ω) (flow : Flow) (w' : ω), m.evaluate s scope w = .ok flow w' → flow.isReturn = false := by
  have hprogram := parse_isProgram h
  refine ⟨hprogram.wellShaped, fun ω _ m s hs scope w flow w' heq => ?_⟩
  cases hprogram with
  | program hbody => exact (hbody s hs).proceeds m _ rfl scope w flow w' heq

/-- A function inside a function, both of which return. -/
theorem parse_wellShaped_nested : ∃ tree, parse "function f() \x7b function g() \x7b return 1; \x7d return g(); \x7d f();" = .ok tree ∧
    tree.WellShaped ∧ ∀ (ω : Type) [World ω] (m : Machine) (s : Node), s ∈ tree.children →
      ∀ (scope : ScopeId) (w : ω) (flow : Flow) (w' : ω), m.evaluate s scope w = .ok flow w' → flow.isReturn = false := by
  have hok : (parse "function f() \x7b function g() \x7b return 1; \x7d return g(); \x7d f();").isOk = true := by decide +kernel
  obtain ⟨tree, h⟩ := exists_parse hok
  exact ⟨tree, h, parse_wellShaped h⟩

end Treewalk
