/-
  Treewalk.Grammar.Expression — expressions.

  From loose to tight: assignment, `?:`, `||`, `&&`, equality, relation, sum, product, `**` (to the
  right), signs, then member access and calls. What the evaluator has no rule for becomes one
  `unsupported` node over its operands.
-/

import Treewalk.Grammar.Skipped

namespace Treewalk.Grammar

variable (g : Grammar) (inBody : Bool) (n : Nat)

/-! ## Primary expressions -/

/-- The name after a point: an identifier or a reserved word. -/
def propertyName (c : Cursor) : Parsed (Node × Cursor) :=
  match c.kind with
  | .ident name => .ok (.ident c.span name, c.advance)
  | .keyword k => .ok (.ident c.span k.text, c.advance)
  | k => fail (.expectedIdentifier k.tag) c.span

def arguments (c : Cursor) : Parsed (List Node × Cursor) := do
  let (opened, c) ← expect .lparen c
  let (es, c) ← commaList (g.expression inBody) .rparen n c
  let (_, c) ← expectClosing .rparen .lparen opened c
  return (es, c)

/-- An expression in parentheses is that expression. -/
def parenthesized (c : Cursor) : Parsed (Node × Cursor) := do
  let opened := c.span
  let (e, c) ← within .parenthesized (g.expression inBody c.advance)
  let (_, c) ← within .parenthesized (expectClosing .rparen .lparen opened c)
  return (e, c)

def arrayLiteral (c : Cursor) : Parsed (Node × Cursor) := do
  let opened := c.span
  let (es, c) ← within .arrayLiteral (commaList (g.expression inBody) .rbracket n c.advance)
  let (_, c) ← within .arrayLiteral (expectClosing .rbracket .lbracket opened c)
  return (.array (c.spanFrom opened) es, c)

/-- A function where an expression is due; its name is optional. -/
def functionExpression (c : Cursor) : Parsed (Node × Cursor) := do
  let start := c.span
  let c := c.advance
  let c := if c.check .ident then c.advance else c
  let (_, c) ← paramsAndBody g n c
  return (.unsupported (c.spanFrom start) "FunctionExpression", c)

/-- The names behind `new` and its first operand. At most `n` are read. -/
def dottedNames : Nat → Cursor → Parsed (Unit × Cursor)
  | 0, c => .ok ((), c)
  | n + 1, c =>
    match c.eats? .dot with
    | none => .ok ((), c)
    | some c => do
      let (_, c) ← propertyName c
      dottedNames n c

def newExpression (c : Cursor) : Parsed (Node × Cursor) := do
  let start := c.span
  let (_, c) ← g.primary inBody c.advance
  let (_, c) ← dottedNames n c
  let (_, c) ← if c.check (.punct .lparen) then arguments g inBody n c else .ok ([], c)
  return (.unsupported (c.spanFrom start) "NewExpression", c)

def primaryAt (c : Cursor) : Parsed (Node × Cursor) :=
  match c.kind with
  | .number x => .ok (.number c.span x, c.advance)
  | .string s => .ok (.string c.span s, c.advance)
  | .ident name => .ok (.ident c.span name, c.advance)
  | .keyword .trueKw => .ok (.bool c.span true, c.advance)
  | .keyword .falseKw => .ok (.bool c.span false, c.advance)
  | .keyword .nullKw => .ok (.null c.span, c.advance)
  | .keyword .thisKw => .ok (.this c.span, c.advance)
  | .punct .lparen => parenthesized g inBody c
  | .punct .lbracket => arrayLiteral g inBody n c
  | .punct .lbrace => skipObject n c
  | .keyword .functionKw => functionExpression g n c
  | .keyword .newKw => newExpression g inBody n c
  | k => fail (.expectedExpression k.tag) c.span

/-! ## Member access and calls -/

def dotMember (object : Node) (c : Cursor) : Parsed (Node × Cursor) := do
  let (property, c) ← within .memberAccess (propertyName c.advance)
  return (.member (object.span.merge property.span) object property false, c)

def computedMember (object : Node) (c : Cursor) : Parsed (Node × Cursor) := do
  let opened := c.span
  let (property, c) ← within .memberAccess (g.expression inBody c.advance)
  let (_, c) ← within .memberAccess (expectClosing .rbracket .lbracket opened c)
  return (.member (c.spanFrom object.span) object property true, c)

def callOf (callee : Node) (c : Cursor) : Parsed (Node × Cursor) := do
  let (as, c) ← within .callArguments (arguments g inBody n c)
  return (.call (c.spanFrom callee.span) callee as, c)

/-- Member accesses and calls behind `e`. At most `k` are read. -/
def suffixes : (k : Nat) → Node → Cursor → Parsed (Node × Cursor)
  | 0, e, c => .ok (e, c)
  | k + 1, e, c =>
    match c.kind with
    | .punct .dot => do
      let (e, c) ← dotMember e c
      suffixes k e c
    | .punct .lbracket => do
      let (e, c) ← computedMember g inBody e c
      suffixes k e c
    | .punct .lparen => do
      let (e, c) ← callOf g inBody n e c
      suffixes k e c
    | _ => .ok (e, c)

def postfixAt (c : Cursor) : Parsed (Node × Cursor) := do
  let (e, c) ← primaryAt g inBody n c
  suffixes g inBody n n e c

/-! ## Operators -/

def isSign (t : Tag) : Bool :=
  t matches .punct .bang | .punct .minus | .punct .plus | .keyword .typeofKw

def unaryAt (c : Cursor) : Parsed (Node × Cursor) :=
  if isSign c.tag then do
    let start := c.span
    let (e, c) ← g.unary inBody c.advance
    return (.unsupported (start.merge e.span) "UnaryExpression", c)
  else postfixAt g inBody n c

/-- Two operands and the operator between them. -/
def joined (op : BinaryOp) (left right : Node) : Node := .binary (left.span.merge right.span) op left right

/-- Two operands and what stands between them, as one node without a rule. -/
def joinedUnsupported (kind : String) (left right : Node) : Node :=
  .unsupported (left.span.merge right.span) kind

def exponentAt (c : Cursor) : Parsed (Node × Cursor) := do
  let (base, c) ← unaryAt g inBody n c
  match c.eats? .starStar with
  | none => return (base, c)
  | some c =>
    let (power, c) ← g.exponent inBody c
    return (joined .exp base power, c)

/-- How a token joins two operands at a level of precedence. -/
abbrev Joins := Tag → Option (Node → Node → Node)

def productJoins : Joins
  | .punct .star => some (joined .mul)
  | .punct .slash => some (joined .div)
  | .punct .percent => some (joined .rem)
  | _ => none

def sumJoins : Joins
  | .punct .plus => some (joined .add)
  | .punct .minus => some (joined .sub)
  | _ => none

def relationJoins : Joins
  | .punct .lt => some (joined .lt)
  | .punct .ltEq => some (joined .ltEq)
  | .punct .gt => some (joined .gt)
  | .punct .gtEq => some (joined .gtEq)
  | _ => none

def equalityJoins : Joins
  | .punct .eqEq => some (joined .eq)
  | .punct .notEq => some (joined .notEq)
  | .punct .eqEqEq => some (joined .strictEq)
  | .punct .notEqEq => some (joined .strictNotEq)
  | _ => none

def andJoins : Joins
  | .punct .ampAmp => some (joinedUnsupported "LogicalExpression")
  | _ => none

def orJoins : Joins
  | .punct .pipePipe => some (joinedUnsupported "LogicalExpression")
  | _ => none

/-- Operators of one level and their right operands behind `left`, grouped to the left. At most `k`
    are read. -/
def chainFrom (joins : Joins) (operand : Cursor → Parsed (Node × Cursor)) : (k : Nat) → Node → Cursor → Parsed (Node × Cursor)
  | 0, left, c => .ok (left, c)
  | k + 1, left, c =>
    match joins c.tag with
    | none => .ok (left, c)
    | some join => do
      let (right, c) ← operand c.advance
      chainFrom joins operand k (join left right) c

def chain (joins : Joins) (operand : Cursor → Parsed (Node × Cursor)) (k : Nat) (c : Cursor) : Parsed (Node × Cursor) := do
  let (left, c) ← operand c
  chainFrom joins operand k left c

def productAt : Cursor → Parsed (Node × Cursor) := chain productJoins (exponentAt g inBody n) n

def sumAt : Cursor → Parsed (Node × Cursor) := chain sumJoins (productAt g inBody n) n

def relationAt : Cursor → Parsed (Node × Cursor) := chain relationJoins (sumAt g inBody n) n

def equalityAt : Cursor → Parsed (Node × Cursor) := chain equalityJoins (relationAt g inBody n) n

def andAt : Cursor → Parsed (Node × Cursor) := chain andJoins (equalityAt g inBody n) n

def orAt : Cursor → Parsed (Node × Cursor) := chain orJoins (andAt g inBody n) n

def conditionalAt (c : Cursor) : Parsed (Node × Cursor) := do
  let (test, c) ← orAt g inBody n c
  match c.eats? .question with
  | none => return (test, c)
  | some c =>
    let (_, c) ← g.expression inBody c
    let (_, c) ← expect .colon c
    let (alternate, c) ← g.expression inBody c
    return (joinedUnsupported "ConditionalExpression" test alternate, c)

def expressionAt (c : Cursor) : Parsed (Node × Cursor) := do
  let (left, c) ← conditionalAt g inBody n c
  match c.eats? .eq with
  | none => return (left, c)
  | some c =>
    let (right, c) ← g.expression inBody c
    return (joinedUnsupported "AssignmentExpression" left right, c)

end Treewalk.Grammar
