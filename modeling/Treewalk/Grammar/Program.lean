/-
  Treewalk.Grammar.Program — nesting levels tied together, and whole programs.

  `ofDepth n` reads what nests less than `n` deep, with loops of less than `n` rounds. Each level
  and each round consumes a token, so for a list of `n` tokens neither bound is ever met.
-/

import Treewalk.Grammar.Statement
import Treewalk.Token.Lexer
import Treewalk.Stack

namespace Treewalk

namespace Grammar

/-- Nothing can be read. -/
def bottom : Grammar :=
  let none (c : Cursor) : Parsed (Node × Cursor) := fail (.expectedExpression c.tag) c.span
  ⟨fun _ => none, fun _ => none, fun _ => none, fun _ => none, fun _ => none⟩

/-- The level around `g`, which bounds loops by `n`. -/
def next (g : Grammar) (n : Nat) : Grammar where
  expression inBody c := Stack.atLevel n fun _ => expressionAt g inBody n c
  exponent inBody c := Stack.atLevel n fun _ => exponentAt g inBody n c
  unary inBody c := Stack.atLevel n fun _ => unaryAt g inBody n c
  primary inBody c := Stack.atLevel n fun _ => primaryAt g inBody n c
  statement inBody c := Stack.atLevel n fun _ => statementAt g inBody n c

def ofDepth : Nat → Grammar
  | 0 => bottom
  | n + 1 => (ofDepth n).next n

/-- Statements up to the end of input. At most `n` are read. -/
def programStatements (statement : Cursor → Parsed (Node × Cursor)) : Nat → Cursor → Parsed (List Node × Cursor)
  | 0, c => .ok ([], c)
  | n + 1, c =>
    if c.atEnd then .ok ([], c)
    else do
      let (s, c) ← statement c
      let (ss, c) ← programStatements statement n c
      return (s :: ss, c)

/-- Reads a whole program. -/
def program (n : Nat) (c : Cursor) : Parsed (Node × Cursor) := do
  let start := c.span
  let (body, c) ← programStatements ((ofDepth n).statement false) n c
  return (.program (start.merge c.span) body, c)

end Grammar

/-- The tree of a token list that ends in its only `eof`. -/
def parseTokens (ts : List Token) : Except ParseError Node :=
  (Grammar.program ts.length (Cursor.ofList ts)).map (·.1)

/-- The tree of a source text. -/
def parse (source : String) : Except SourceError Node :=
  match lex source with
  | .error e => .error (.lex e)
  | .ok ts => (parseTokens ts).mapError .parse

end Treewalk
