/-
  Treewalk.Token.Cursor — a place in a token list: the tokens behind it and those before it.
-/

import Treewalk.Token

namespace Treewalk

/-- A token list split at a place. A list that lacks its `eof` can be left behind by any number of
    further steps. -/
structure Cursor where
  /-- The tokens consumed, the latest first. -/
  past : List Token
  rest : List Token
  /-- Steps taken beyond the last token. -/
  beyond : Nat
  deriving DecidableEq, Repr

namespace Cursor

def ofList (ts : List Token) : Cursor := ⟨[], ts, 0⟩

def position (c : Cursor) : Nat := c.past.length + c.beyond

/-- How many tokens there are in all. -/
def size (c : Cursor) : Nat := c.past.length + c.rest.length

def isEmpty (c : Cursor) : Bool := c.size == 0

/-- The token at the cursor; beyond the list this is its last token. -/
def current (c : Cursor) : Token :=
  match c.rest, c.past with
  | t :: _, _ => t
  | [], t :: _ => t
  | [], [] => Token.missing

def kind (c : Cursor) : TokenKind := c.current.kind

def tag (c : Cursor) : Tag := c.current.tag

def span (c : Cursor) : Span := c.current.span

/-- The span of the token consumed last. -/
def previousSpan (c : Cursor) : Span :=
  match c.beyond, c.past with
  | 0, t :: _ => t.span
  | _, _ => Span.none

/-- The kind of the token after the current one; at the end, the current one's. -/
def nextKind (c : Cursor) : TokenKind :=
  match c.rest with
  | _ :: t :: _ => t.kind
  | _ => c.kind

def atEnd (c : Cursor) : Bool := c.tag == .eof

/-- Whether the current token is of a kind, whatever it carries. -/
def check (c : Cursor) (tag : Tag) : Bool := c.tag == tag

/-- Consumes the current token; `eof` stays. -/
def advance (c : Cursor) : Cursor :=
  if c.atEnd then c
  else
    match c.rest with
    | t :: r => { c with past := t :: c.past, rest := r }
    | [] => { c with beyond := c.beyond + 1 }

/-- Consumes the current token if it is of a kind. -/
def eat (c : Cursor) (tag : Tag) : Bool × Cursor := if c.check tag then (true, c.advance) else (false, c)

/-- Consumes the current token if it is a certain punctuation. -/
def eats? (c : Cursor) (p : Punct) : Option Cursor := if c.check (.punct p) then some c.advance else none

/-- The cursor behind a punctuation that may be there. -/
def skip (c : Cursor) (p : Punct) : Cursor := (c.eats? p).getD c

/-- From the start of one span to the end of the token consumed last. -/
def spanFrom (c : Cursor) (start : Span) : Span := start.merge c.previousSpan

end Cursor

end Treewalk
