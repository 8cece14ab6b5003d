/-
  Treewalk.Token.Lexer — source text to tokens.

  `shape` finds the longest lexeme at the front of a text; `kind` turns a lexeme into a token, into
  nothing (blanks and comments) or into an error; `lex` goes on behind each lexeme. A token list
  ends in one `eof` at the end of the text. Offsets that no span can hold give no span, and the
  offsets of the end and of an escape stop at the largest one.
-/

import Treewalk.Token
import Treewalk.Token.Error
import Treewalk.Token.Escape

namespace Treewalk

namespace Lexer

open Escape (byteLength isHexDigit)

/-- Space, tab, line breaks and form feed. -/
def isGap (c : Char) : Bool := c = ' ' || c = '\t' || c = '\r' || c = '\n' || c = '\x0c'

def isWordStart (c : Char) : Bool := c.isAlpha || c = '_' || c = '$'

def isWordPart (c : Char) : Bool := isWordStart c || c.isDigit

inductive Shape where
  | gap
  | lineComment
  | blockComment
  /-- A block comment that is never closed. -/
  | openComment
  | word
  | hexNumber
  | number
  | malformedNumber
  /-- A string literal whose quote is closed. -/
  | string
  /-- A string literal that ends with its line. -/
  | openString
  | punct (p : Punct)
  /-- A character that starts no token. -/
  | stray
  deriving DecidableEq, Repr

/-! ## Lengths of lexemes, in characters -/

/-- The characters up to and with the end of a block comment. -/
def commentLength? : List Char → Option Nat
  | '*' :: '/' :: _ => some 2
  | _ :: cs => (commentLength? cs).map (· + 1)
  | [] => none

/-- The characters of a string body and its closing quote, and whether there is one. A backslash
    takes the next character along, but never a line break. -/
def stringLength (quote : Char) : List Char → Bool × Nat
  | [] => (false, 0)
  | '\\' :: c :: cs =>
    if c = '\n' ∨ c = '\r' then (false, 1)
    else
      let (closed, n) := stringLength quote cs
      (closed, n + 2)
  | c :: cs =>
    if c = '\n' ∨ c = '\r' then (false, 0)
    else if c = quote then (true, 1)
    else
      let (closed, n) := stringLength quote cs
      (closed, n + 1)

def digitCount (cs : List Char) : Nat := (cs.takeWhile Char.isDigit).length

def fractionLength : List Char → Nat
  | '.' :: cs => 1 + digitCount cs
  | _ => 0

def signLength : List Char → Nat
  | '+' :: _ => 1
  | '-' :: _ => 1
  | _ => 0

/-- The exponent mark and sign at the front, if any, and the digits behind them. -/
def exponentLengths : List Char → Option (Nat × Nat)
  | c :: cs =>
    if c = 'e' ∨ c = 'E' then
      let s := signLength cs
      some (1 + s, digitCount (cs.drop s))
    else none
  | [] => none

/-- A number that starts with a digit. A mark without digits makes it malformed. -/
def decimalShape (cs : List Char) : Shape × Nat :=
  let whole := digitCount cs
  let body := whole + fractionLength (cs.drop whole)
  match exponentLengths (cs.drop body) with
  | none => (.number, body)
  | some (mark, 0) => (.malformedNumber, body + mark)
  | some (mark, digits) => (.number, body + mark + digits)

/-- A number that starts with a point. A mark without digits is not part of it. -/
def pointShape (cs : List Char) : Shape × Nat :=
  let body := fractionLength cs
  match exponentLengths (cs.drop body) with
  | some (mark, digits + 1) => (.number, body + mark + (digits + 1))
  | _ => (.number, body)

def hexShape (afterMark : List Char) : Shape × Nat :=
  match (afterMark.takeWhile isHexDigit).length with
  | 0 => (.malformedNumber, 2)
  | n + 1 => (.hexNumber, 2 + (n + 1))

def numberShape : List Char → Shape × Nat
  | '0' :: 'x' :: cs => hexShape cs
  | '0' :: 'X' :: cs => hexShape cs
  | cs => decimalShape cs

def punctShape (cs : List Char) : Shape × Nat :=
  match Punct.ofStart? cs with
  | some p => (.punct p, p.text.length)
  | none => (.stray, 1)

def slashShape : List Char → Shape × Nat
  | '/' :: '/' :: cs => (.lineComment, 2 + (cs.takeWhile (· ≠ '\n')).length)
  | '/' :: '*' :: cs =>
    match commentLength? cs with
    | some n => (.blockComment, 2 + n)
    | none => (.openComment, 2 + cs.length)
  | cs => punctShape cs

def dotShape : List Char → Shape × Nat
  | '.' :: c :: cs => if c.isDigit then pointShape ('.' :: c :: cs) else punctShape ('.' :: c :: cs)
  | cs => punctShape cs

/-- The longest lexeme at the front of a text that starts with `c`. -/
def shape (c : Char) (cs : List Char) : Shape × Nat :=
  if isGap c then (.gap, 1 + (cs.takeWhile isGap).length)
  else if isWordStart c then (.word, 1 + (cs.takeWhile isWordPart).length)
  else if c.isDigit then numberShape (c :: cs)
  else if c = '"' ∨ c = '\'' then
    let (closed, n) := stringLength c cs
    (if closed then .string else .openString, 1 + n)
  else if c = '/' then slashShape (c :: cs)
  else if c = '.' then dotShape (c :: cs)
  else punctShape (c :: cs)

/-! ## Lexemes to tokens -/

def wordKind (text : String) : TokenKind :=
  match Keyword.ofText? text with
  | some k => .keyword k
  | none => .ident text

/-- Hexadecimal literals hold 64 bits. -/
def hexKind? (digits : List Char) : Option TokenKind :=
  let n := Escape.hexNat digits
  if n < Nat.pow 2 64 then some (.number (Decimal.ofNat n)) else none

/-- The token a lexeme makes, or none for what is skipped; `span` is where it stands. -/
def kind (shape : Shape) (lexeme : List Char) (span : Span) : Except LexError (Option TokenKind) :=
  let text := String.ofList lexeme
  let number (k : Option TokenKind) : Except LexError (Option TokenKind) :=
    match k with
    | some k => .ok (some k)
    | none => .error ⟨.invalidNumber text, span⟩
  match shape with
  | .gap | .lineComment | .blockComment => .ok none
  | .openComment => .error ⟨.unterminatedComment, span⟩
  | .word => .ok (some (wordKind text))
  | .hexNumber => number (hexKind? (lexeme.drop 2))
  | .number => number ((Decimal.read? lexeme).map fun d => .number d.toFloat)
  | .malformedNumber => number none
  | .string =>
    let body := span.start + 1
    match Escape.decode (lexeme.drop 1).dropLast with
    | .ok cs => .ok (some (.string (String.ofList cs)))
    | .error m => .error ⟨.invalidEscape m.text, ⟨Span.clamp (body + m.start), Span.clamp (body + m.stop)⟩⟩
  | .openString => .error ⟨.unterminatedString, span⟩
  | .punct p => .ok (some (.punct p))
  | .stray => .error ⟨.unexpectedChar (lexeme.headD '\x00'), span⟩

/-- The tokens of a text that starts at byte offset `pos`. -/
def lexFrom (pos : Nat) (text : List Char) : Except LexError (List Token) :=
  match text with
  | [] => .ok [⟨.eof, .point (Span.clamp pos)⟩]
  | c :: cs =>
    let (s, n) := shape c cs
    let lexeme := c :: cs.take (n - 1)
    let next := pos + byteLength lexeme
    let span := Span.between pos next
    match kind s lexeme span with
    | .error e => .error e
    | .ok none => lexFrom next (cs.drop (n - 1))
    | .ok (some k) => (lexFrom next (cs.drop (n - 1))).map (⟨k, span⟩ :: ·)
termination_by text.length
decreasing_by all_goals simp only [List.length_cons, List.length_drop]; omega

end Lexer

/-- The tokens of a source text, or what is wrong with its first malformed lexeme. -/
def lex (source : String) : Except LexError (List Token) := Lexer.lexFrom 0 source.toList

end Treewalk
