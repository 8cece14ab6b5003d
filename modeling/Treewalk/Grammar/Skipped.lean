/-
  Treewalk.Grammar.Skipped — constructs that are only recognised: where they end is found by their
  brackets, and the whole becomes one `unsupported` node.
-/

import Treewalk.Grammar.Basic

namespace Treewalk.Grammar

/-- The kind of the statement a word introduces, for statements that are skipped. -/
def skippedKind? : Keyword → Option String
  | .ifKw => some "IfStatement"
  | .whileKw => some "WhileStatement"
  | .forKw => some "ForStatement"
  | .doKw => some "DoWhileStatement"
  | .switchKw => some "SwitchStatement"
  | .tryKw => some "TryStatement"
  | .throwKw => some "ThrowStatement"
  | .classKw => some "ClassDeclaration"
  | .breakKw => some "BreakStatement"
  | .continueKw => some "ContinueStatement"
  | _ => none

/-- Whether the current token goes on with a statement that could end before it. -/
def continues (kind : String) (c : Cursor) : Bool :=
  match c.kind with
  | .keyword .elseKw | .keyword .catchKw | .keyword .finallyKw => true
  | .keyword .whileKw => kind == "DoWhileStatement"
  | _ => false

def skipped (kind : String) (start : Span) (c : Cursor) : Parsed (Node × Cursor) :=
  .ok (.unsupported (c.spanFrom start) kind, c)

/-- The input ended: inside brackets that is an error. -/
def skippedAtEnd (kind : String) (start : Span) (opened : List (Punct × Span)) (c : Cursor) : Parsed (Node × Cursor) :=
  match opened with
  | (p, place) :: _ => within .unsupportedSyntax (unclosed p place c)
  | [] => skipped kind start c

/-- Skips the rest of a statement, `opened` being the brackets still open, the innermost first. It
    ends at a semicolon or at the brace that closes its last body, both outside all brackets, unless
    the next token goes on with it; a bracket that closes one around it is left in place. -/
def skipFrom (kind : String) (start : Span) : Nat → List (Punct × Span) → Cursor → Parsed (Node × Cursor)
  | 0, opened, c => skippedAtEnd kind start opened c
  | n + 1, opened, c =>
    match c.kind with
    | .eof => skippedAtEnd kind start opened c
    | .punct p =>
      if p.isOpener then skipFrom kind start n ((p, c.span) :: opened) c.advance
      else if p.isCloser then
        match opened with
        | [] => skipped kind start c
        | _ :: opened =>
          if opened.isEmpty && p == .rbrace && !continues kind c.advance then
            skipped kind start (c.advance.skip .semicolon)
          else skipFrom kind start n opened c.advance
      else if p == .semicolon && opened.isEmpty && !continues kind c.advance then
        skipped kind start c.advance
      else skipFrom kind start n opened c.advance
    | _ => skipFrom kind start n opened c.advance

def skipStatement (kind : String) (n : Nat) (c : Cursor) : Parsed (Node × Cursor) := skipFrom kind c.span n [] c

/-- Skips the rest of an object literal that is `depth` brackets deep. -/
def skipObjectFrom (start : Span) : Nat → (depth : Nat) → Cursor → Parsed (Node × Cursor)
  | 0, _, c => within .unsupportedSyntax (unclosed .lbrace start c)
  | n + 1, depth, c =>
    match c.kind with
    | .eof => within .unsupportedSyntax (unclosed .lbrace start c)
    | .punct p =>
      if p.isOpener then skipObjectFrom start n (depth + 1) c.advance
      else if p.isCloser then
        if depth ≤ 1 then skipped "ObjectExpression" start c.advance
        else skipObjectFrom start n (depth - 1) c.advance
      else skipObjectFrom start n depth c.advance
    | _ => skipObjectFrom start n depth c.advance

def skipObject (n : Nat) (c : Cursor) : Parsed (Node × Cursor) := skipObjectFrom c.span n 0 c

end Treewalk.Grammar
