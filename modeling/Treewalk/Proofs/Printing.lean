/-
  Treewalk.Proofs.Printing — trees written out as tokens.

  `print` writes a tree with a semicolon behind each statement that takes one, and with parentheses
  only around operands that bind less tightly than their place asks for. From loose to tight:
  equality, relation, sum, product, `**`, then member access and calls; `**` groups to the right, the
  other operators to the left. Where something stands in the source is not written: `bare` is a tree
  without its spans. Nodes of constructs that are only recognised cannot be written; a tree without
  any is `Supported`.

  Proved: `nodes` lists a node before all that is below it (`nodes_eq`), so what is below a supported
  node is supported; and how written expressions and statements begin (`IsExpression.print_opens`,
  `IsStatement.print_opens`).
-/

import Treewalk.Proofs.Shape

namespace Treewalk

/-! ## Precedence -/

namespace BinaryOp

/-- The token of an operator. -/
def punct : BinaryOp → Punct
  | add => .plus
  | sub => .minus
  | mul => .star
  | div => .slash
  | rem => .percent
  | exp => .starStar
  | eq => .eqEq
  | notEq => .notEq
  | strictEq => .eqEqEq
  | strictNotEq => .notEqEq
  | lt => .lt
  | ltEq => .ltEq
  | gt => .gt
  | gtEq => .gtEq

/-- How tightly an operator binds. -/
def precedence : BinaryOp → Nat
  | eq | notEq | strictEq | strictNotEq => 1
  | lt | ltEq | gt | gtEq => 2
  | add | sub => 3
  | mul | div | rem => 4
  | exp => 5

/-- Whether a chain of the operator groups to the right. -/
def groupsRight (op : BinaryOp) : Bool := op == .exp

/-- How tightly the left operand has to bind to stand without parentheses. -/
def leftLevel (op : BinaryOp) : Nat := if op.groupsRight then op.precedence + 1 else op.precedence

/-- How tightly the right operand has to bind to stand without parentheses. -/
def rightLevel (op : BinaryOp) : Nat := if op.groupsRight then op.precedence else op.precedence + 1

theorem precedence_bounds (op : BinaryOp) : 1 ≤ op.precedence ∧ op.precedence ≤ 5 := by
  cases op <;> decide

end BinaryOp

def DeclarationWord.keyword : DeclarationWord → Keyword
  | .var => .varKw
  | .letWord => .letKw
  | .const => .constKw

namespace Node

/-- How tightly an expression binds: anything but an operator binds tightest. -/
def precedence : Node → Nat
  | .binary _ op _ _ => op.precedence
  | _ => 6

theorem precedence_bounds (e : Node) : 1 ≤ e.precedence ∧ e.precedence ≤ 6 := by
  unfold precedence
  split
  · rename_i op _ _
    have := op.precedence_bounds
    omega
  · omega

/-! ## Writing -/

/-- Token lists with commas between them. -/
def commas : List (List TokenKind) → List TokenKind
  | [] => []
  | [ts] => ts
  | ts :: us :: rest => ts ++ .punct .comma :: commas (us :: rest)

/-- The tokens of an expression in a place that asks for `level`. -/
def grouped (level : Nat) (e : Node) (ts : List TokenKind) : List TokenKind :=
  if e.precedence < level then .punct .lparen :: ts ++ [.punct .rparen] else ts

/-- The parameters of a function. -/
def printParams (ps : List Param) : List TokenKind := commas (ps.map fun p => [.ident p.name])

mutual

/-- The tokens of a tree. -/
def print : Node → List TokenKind
  | .program _ body => (printEach body).flatten
  | .variables _ word ds => .keyword word.keyword :: commas (printEach ds) ++ [.punct .semicolon]
  | .declarator _ id none => print id
  | .declarator _ id (some e) => print id ++ .punct .eq :: print e
  | .function _ id ps body =>
    .keyword .functionKw :: print id ++ .punct .lparen :: printParams ps ++ .punct .rparen :: print body
  | .returning _ none => [.keyword .returnKw, .punct .semicolon]
  | .returning _ (some e) => .keyword .returnKw :: print e ++ [.punct .semicolon]
  | .block _ body => .punct .lbrace :: (printEach body).flatten ++ [.punct .rbrace]
  | .expression _ e => print e ++ [.punct .semicolon]
  | .empty _ => [.punct .semicolon]
  | .binary _ op l r =>
    grouped op.leftLevel l (print l) ++ .punct op.punct :: grouped op.rightLevel r (print r)
  | .ident _ name => [.ident name]
  | .number _ x => [.number x]
  | .string _ s => [.string s]
  | .bool _ true => [.keyword .trueKw]
  | .bool _ false => [.keyword .falseKw]
  | .null _ => [.keyword .nullKw]
  | .this _ => [.keyword .thisKw]
  | .array _ es => .punct .lbracket :: commas (printEach es) ++ [.punct .rbracket]
  | .member _ o p false => grouped 6 o (print o) ++ .punct .dot :: print p
  | .member _ o p true => grouped 6 o (print o) ++ .punct .lbracket :: print p ++ [.punct .rbracket]
  | .call _ f as => grouped 6 f (print f) ++ .punct .lparen :: commas (printEach as) ++ [.punct .rparen]
  | .unsupported _ _ => []

def printEach : List Node → List (List TokenKind)
  | [] => []
  | n :: ns => print n :: printEach ns

end

@[simp] theorem printEach_eq_map (ns : List Node) : printEach ns = ns.map print := by
  induction ns with
  | nil => rfl
  | cons n ns ih => simp [printEach, ih]

/-- The tokens of an expression in a place that asks for `level`. -/
def printAt (level : Nat) (e : Node) : List TokenKind := grouped level e e.print

theorem printAt_of_le {level : Nat} {e : Node} (h : level ≤ e.precedence) : e.printAt level = e.print := by
  unfold printAt grouped
  rw [if_neg (by omega)]

theorem printAt_of_lt {level : Nat} {e : Node} (h : e.precedence < level) :
    e.printAt level = .punct .lparen :: e.print ++ [.punct .rparen] := by
  unfold printAt grouped
  rw [if_pos h]

/-- Only the level of the expression itself makes a difference. -/
theorem printAt_succ {level : Nat} {e : Node} (h : e.precedence ≠ level) :
    e.printAt (level + 1) = e.printAt level := by
  by_cases hl : e.precedence < level
  · rw [printAt_of_lt hl, printAt_of_lt (by omega)]
  · rw [printAt_of_le (by omega : level ≤ e.precedence), printAt_of_le (by omega)]

/-! ## Trees without spans -/

mutual

/-- The tree with nothing said about where it stands. -/
def bare : Node → Node
  | .program _ body => .program .none (bareAll body)
  | .variables _ word ds => .variables .none word (bareAll ds)
  | .declarator _ id none => .declarator .none (bare id) none
  | .declarator _ id (some e) => .declarator .none (bare id) (some (bare e))
  | .function _ id ps body => .function .none (bare id) (ps.map fun p => ⟨p.name, .none⟩) (bare body)
  | .returning _ none => .returning .none none
  | .returning _ (some e) => .returning .none (some (bare e))
  | .block _ body => .block .none (bareAll body)
  | .expression _ e => .expression .none (bare e)
  | .empty _ => .empty .none
  | .binary _ op l r => .binary .none op (bare l) (bare r)
  | .ident _ name => .ident .none name
  | .number _ x => .number .none x
  | .string _ s => .string .none s
  | .bool _ b => .bool .none b
  | .null _ => .null .none
  | .this _ => .this .none
  | .array _ es => .array .none (bareAll es)
  | .member _ o p c => .member .none (bare o) (bare p) c
  | .call _ f as => .call .none (bare f) (bareAll as)
  | .unsupported _ kind => .unsupported .none kind

def bareAll : List Node → List Node
  | [] => []
  | n :: ns => bare n :: bareAll ns

end

@[simp] theorem span_bare (n : Node) : n.bare.span = .none := by
  cases n with
  | declarator _ _ init => cases init <;> simp only [bare, span]
  | returning _ argument => cases argument <;> simp only [bare, span]
  | _ => simp only [bare, span]

@[simp] theorem bareAll_eq_map (ns : List Node) : bareAll ns = ns.map bare := by
  induction ns with
  | nil => rfl
  | cons n ns ih => simp [bareAll, ih]

/-! ## Supported trees -/

mutual

theorem map_walk : ∀ (n : Node) (depth : Nat), (walk depth n).map (·.2) = n :: n.children.flatMap nodes
  | .program _ body, d | .variables _ _ body, d | .block _ body, d | .array _ body, d => by
    simp [walk, children, map_walkAll body (d + 1)]
  | .declarator _ id none, d | .expression _ id, d | .returning _ (some id), d => by
    simp [walk, children, nodes, map_walk id (d + 1), map_walk id 0]
  | .declarator _ a (some b), d | .function _ a _ b, d | .binary _ _ a b, d | .member _ a b _, d => by
    simp [walk, children, nodes, map_walk a (d + 1), map_walk a 0, map_walk b (d + 1), map_walk b 0]
  | .call _ f as, d => by
    simp [walk, children, nodes, map_walk f (d + 1), map_walk f 0, map_walkAll as (d + 1)]
  | .returning _ none, d | .empty _, d | .ident _ _, d | .number _ _, d | .string _ _, d | .bool _ _, d
  | .null _, d | .this _, d | .unsupported _ _, d => by
    simp [walk, children]

theorem map_walkAll : ∀ (ns : List Node) (depth : Nat), (walkAll depth ns).map (·.2) = ns.flatMap nodes
  | [], _ => rfl
  | n :: ns, d => by
    simp [walkAll, nodes, map_walk n d, map_walk n 0, map_walkAll ns d]

end

theorem nodes_eq (n : Node) : n.nodes = n :: n.children.flatMap nodes := map_walk n 0

/-- What holds of all nodes holds of the tree's own and of all below each child. -/
theorem forall_nodes_iff {P : Node → Prop} {n : Node} :
    (∀ d ∈ n.nodes, P d) ↔ P n ∧ ∀ c ∈ n.children, ∀ d ∈ c.nodes, P d := by
  rw [nodes_eq, List.forall_mem_cons]
  refine and_congr_right fun _ => ⟨fun h c hc d hd => h d (List.mem_flatMap.mpr ⟨c, hc, hd⟩), fun h d hd => ?_⟩
  obtain ⟨c, hc, hd⟩ := List.mem_flatMap.mp hd
  exact h c hc d hd

/-- No construct that is only recognised occurs in the tree. -/
def Supported (n : Node) : Prop := ∀ d ∈ n.nodes, ∀ span kind, d ≠ .unsupported span kind

instance (n : Node) : Decidable n.Supported :=
  decidable_of_iff (∀ d ∈ n.nodes, (d matches .unsupported _ _) = false)
    (forall₂_congr fun d _ => by cases d <;> simp)

theorem supported_iff {n : Node} :
    n.Supported ↔ (∀ span kind, n ≠ .unsupported span kind) ∧ ∀ d ∈ n.children, d.Supported :=
  forall_nodes_iff

theorem Supported.child {n d : Node} (h : n.Supported) (hd : d ∈ n.children) : d.Supported :=
  (supported_iff.mp h).2 d hd

theorem not_supported_unsupported {span : Span} {kind : String} : ¬ (Node.unsupported span kind).Supported :=
  fun h => (supported_iff.mp h).1 span kind rfl

end Node

/-! ## How written trees begin -/

namespace TokenKind

/-- The tokens that a written expression can begin with. -/
def opensExpression : TokenKind → Bool
  | .number _ | .string _ | .ident _ => true
  | .keyword .trueKw | .keyword .falseKw | .keyword .nullKw | .keyword .thisKw => true
  | .punct .lparen | .punct .lbracket => true
  | _ => false

/-- The tokens that a written statement can begin with. -/
def opensStatement (k : TokenKind) : Bool :=
  k.opensExpression || k matches .keyword .varKw | .keyword .letKw | .keyword .constKw | .keyword .functionKw
    | .keyword .returnKw | .punct .lbrace | .punct .semicolon

end TokenKind

namespace Node

open TokenKind

/-- The first token of a list satisfies `p`. -/
def Begins (p : TokenKind → Bool) (ts : List TokenKind) : Prop := ∃ k ks, ts = k :: ks ∧ p k = true

theorem Begins.append {p : TokenKind → Bool} {ts : List TokenKind} (h : Begins p ts) (us : List TokenKind) :
    Begins p (ts ++ us) := by
  obtain ⟨k, ks, rfl, hk⟩ := h
  exact ⟨k, ks ++ us, rfl, hk⟩

theorem Begins.grouped {ts : List TokenKind} (h : Begins opensExpression ts) (level : Nat) (e : Node) :
    Begins opensExpression (grouped level e ts) := by
  unfold Node.grouped
  split
  · exact ⟨_, _, rfl, rfl⟩
  · exact h

theorem IsExpression.print_opens {e : Node} (he : e.IsExpression) (hs : e.Supported) :
    Begins opensExpression e.print := by
  induction he with
  | binary hl hr ihl ihr =>
    rw [print]
    exact ((ihl (hs.child (by simp [children]))).grouped _ _).append _
  | bool =>
    rename_i b
    cases b <;> exact ⟨_, _, rfl, rfl⟩
  | dotted ho ih =>
    rw [print]
    exact ((ih (hs.child (by simp [children]))).grouped _ _).append _
  | computed ho hp ih _ =>
    rw [print, List.append_assoc]
    exact ((ih (hs.child (by simp [children]))).grouped _ _).append _
  | call hc has ih _ =>
    rw [print, List.append_assoc]
    exact ((ih (hs.child (by simp [children]))).grouped _ _).append _
  | ident | number | string | null | this | array => exact ⟨_, _, rfl, rfl⟩
  | unsupported => exact absurd hs not_supported_unsupported

theorem IsStatement.print_opens {inBody : Bool} {s : Node} (hst : s.IsStatement inBody) (hs : s.Supported) :
    Begins opensStatement s.print := by
  cases hst with
  | declaration hne hds =>
    rename_i word _
    cases word <;> exact ⟨_, _, rfl, rfl⟩
  | returning harg =>
    rename_i argument
    cases argument <;> exact ⟨_, _, rfl, rfl⟩
  | expression he =>
    obtain ⟨k, ks, hk, hopen⟩ := he.print_opens (hs.child (by simp [children]))
    exact ⟨k, ks ++ [.punct .semicolon], by rw [print, hk]; rfl, by simp [opensStatement, hopen]⟩
  | function _ | block _ | empty => exact ⟨_, _, rfl, rfl⟩
  | unsupported => exact absurd hs not_supported_unsupported

end Node

end Treewalk
