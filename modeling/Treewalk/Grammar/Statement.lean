/-
  Treewalk.Grammar.Statement — statements. A semicolon behind one is optional: without it the
  statement ends where the next one begins.
-/

import Treewalk.Grammar.Expression

namespace Treewalk.Grammar

variable (g : Grammar) (inBody : Bool) (n : Nat)

def declarator (c : Cursor) : Parsed (Node × Cursor) := do
  let (id, c) ← expectIdent c
  match c.eats? .eq with
  | none => return (.declarator (c.spanFrom id.span) (.ident id.span id.name) none, c)
  | some c =>
    let (e, c) ← g.expression inBody c
    return (.declarator (c.spanFrom id.span) (.ident id.span id.name) (some e), c)

/-- One or more declarators with commas between them. At most `k` more follow the first. -/
def declarators : (k : Nat) → Cursor → Parsed (List Node × Cursor)
  | 0, c => do
    let (d, c) ← within .variableDeclaration (declarator g inBody c)
    return ([d], c)
  | k + 1, c => do
    let (d, c) ← within .variableDeclaration (declarator g inBody c)
    match c.eats? .comma with
    | none => return ([d], c)
    | some c =>
      let (ds, c) ← declarators k c
      return (d :: ds, c)

def variableDeclaration (word : DeclarationWord) (c : Cursor) : Parsed (Node × Cursor) := do
  let start := c.span
  let (ds, c) ← declarators g inBody n c.advance
  let c := c.skip .semicolon
  return (.variables (c.spanFrom start) word ds, c)

def namedFunction (c : Cursor) : Parsed ((Param × List Param × Node) × Cursor) := do
  let (id, c) ← expectIdent c
  let ((ps, body), c) ← paramsAndBody g n c
  return ((id, ps, body), c)

def functionDeclaration (c : Cursor) : Parsed (Node × Cursor) := do
  let start := c.span
  let ((id, ps, body), c) ← within .functionDeclaration (namedFunction g n c.advance)
  return (.function (c.spanFrom start) (.ident id.span id.name) ps body, c)

/-- Whether a `return` has no argument. -/
def endsReturn (t : Tag) : Bool := t matches .punct .semicolon | .punct .rbrace | .eof

/-- The argument of a `return`, if there is one. -/
def returnArgument (c : Cursor) : Parsed (Option Node × Cursor) :=
  if endsReturn c.tag then .ok (none, c)
  else do
    let (e, c) ← g.expression inBody c
    return (some e, c)

def returnStatement (c : Cursor) : Parsed (Node × Cursor) := do
  let start := c.span
  if inBody then
    let (argument, c) ← returnArgument g inBody c.advance
    let c := c.skip .semicolon
    return (.returning (c.spanFrom start) argument, c)
  else fail .returnOutsideFunction start

def expressionStatement (c : Cursor) : Parsed (Node × Cursor) := do
  let (e, c) ← expressionAt g inBody n c
  let c := c.skip .semicolon
  return (.expression (c.spanFrom e.span) e, c)

def keywordStatement (k : Keyword) (c : Cursor) : Parsed (Node × Cursor) :=
  match k with
  | .varKw => variableDeclaration g inBody n .var c
  | .letKw => variableDeclaration g inBody n .letWord c
  | .constKw => variableDeclaration g inBody n .const c
  | .functionKw => functionDeclaration g n c
  | .returnKw => returnStatement g inBody c
  | k =>
    match skippedKind? k with
    | some kind => skipStatement kind n c
    | none => expressionStatement g inBody n c

def statementAt (c : Cursor) : Parsed (Node × Cursor) :=
  match c.kind with
  | .keyword k => keywordStatement g inBody n k c
  | .punct .lbrace => block (g.statement inBody) n c
  | .punct .semicolon => .ok (.empty c.span, c.advance)
  | _ => expressionStatement g inBody n c

end Treewalk.Grammar
