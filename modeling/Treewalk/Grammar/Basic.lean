/-
  Treewalk.Grammar.Basic — the steps all parsing is made of.

  A parser takes a cursor to what it read and the cursor behind it. Grammars nest: `Grammar` holds
  the parsers of one nesting level, and each construct is read by the parsers one level further in
  (`Treewalk.Grammar.Program` ties the levels together).
-/

import Treewalk.Node
import Treewalk.Token.Cursor
import Treewalk.Grammar.Error

namespace Treewalk

/-- What was read, or why nothing could be. -/
abbrev Parsed := Except ParseError

/-- The parsers of a nesting level. The flag says whether a function body is around. -/
structure Grammar where
  expression : Bool → Cursor → Parsed (Node × Cursor)
  exponent : Bool → Cursor → Parsed (Node × Cursor)
  unary : Bool → Cursor → Parsed (Node × Cursor)
  primary : Bool → Cursor → Parsed (Node × Cursor)
  statement : Bool → Cursor → Parsed (Node × Cursor)

namespace Grammar

/-- Names the construct in which a parser failed. -/
def within {α : Type} (context : Context) (r : Parsed α) : Parsed α :=
  r.mapError (·.inContext context)

def fail {α : Type} (cause : ParseCause) (span : Span) : Parsed α := .error ⟨cause, span, none⟩

/-- Consumes a certain punctuation, giving its span. -/
def expect (p : Punct) (c : Cursor) : Parsed (Span × Cursor) :=
  if c.check (.punct p) then .ok (c.span, c.advance)
  else fail (.unexpectedToken (.punct p) c.tag) c.span

def unclosed {α : Type} (opener : Punct) (opened : Span) (c : Cursor) : Parsed α :=
  fail (.unclosedDelimiter opener opened) c.span

/-- Consumes the bracket that closes the one opened at `opened`. -/
def expectClosing (close opener : Punct) (opened : Span) (c : Cursor) : Parsed (Span × Cursor) :=
  if c.atEnd then unclosed opener opened c else expect close c

/-- Consumes an identifier. -/
def expectIdent (c : Cursor) : Parsed (Param × Cursor) :=
  match c.kind with
  | .ident name => .ok (⟨name, c.span⟩, c.advance)
  | k => fail (.expectedIdentifier k.tag) c.span

/-- Expressions with commas between them up to a closing bracket; one comma may stand behind the
    last. At most `n` are read. -/
def commaList (item : Cursor → Parsed (Node × Cursor)) (close : Punct) : Nat → Cursor → Parsed (List Node × Cursor)
  | 0, c => .ok ([], c)
  | n + 1, c =>
    if c.check (.punct close) || c.atEnd then .ok ([], c)
    else do
      let (e, c) ← item c
      match c.eats? .comma with
      | none => return ([e], c)
      | some c =>
        let (es, c) ← commaList item close n c
        return (e :: es, c)

/-- Statements up to a closing brace or the end of input. At most `n` are read. -/
def statements (statement : Cursor → Parsed (Node × Cursor)) : Nat → Cursor → Parsed (List Node × Cursor)
  | 0, c => .ok ([], c)
  | n + 1, c =>
    if c.check (.punct .rbrace) || c.atEnd then .ok ([], c)
    else do
      let (s, c) ← statement c
      let (ss, c) ← statements statement n c
      return (s :: ss, c)

/-- A block, its statements read by `statement`. -/
def block (statement : Cursor → Parsed (Node × Cursor)) (n : Nat) (c : Cursor) : Parsed (Node × Cursor) := do
  let (opened, c) ← expect .lbrace c
  let (body, c) ← statements statement n c
  let (_, c) ← within .block (expectClosing .rbrace .lbrace opened c)
  return (.block (c.spanFrom opened) body, c)

/-- Parameters with commas between them up to the closing parenthesis. At most `n` are read. -/
def params : Nat → Cursor → Parsed (List Param × Cursor)
  | 0, c => .ok ([], c)
  | n + 1, c =>
    if c.check (.punct .rparen) || c.atEnd then .ok ([], c)
    else do
      let (p, c) ← within .functionParams (expectIdent c)
      match c.eats? .comma with
      | none => return ([p], c)
      | some c =>
        let (ps, c) ← params n c
        return (p :: ps, c)

/-- The parameter list and the body of a function. -/
def paramsAndBody (g : Grammar) (n : Nat) (c : Cursor) : Parsed ((List Param × Node) × Cursor) := do
  let (opened, c) ← expect .lparen c
  let (ps, c) ← params n c
  let (_, c) ← within .functionParams (expectClosing .rparen .lparen opened c)
  let (body, c) ← block (g.statement true) n c
  return ((ps, body), c)

end Grammar

end Treewalk
