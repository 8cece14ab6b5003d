/-
  Treewalk.Grammar.Error — why a token list is no program, where, and inside which construct.
-/

import Treewalk.Token
import Treewalk.Token.Error

namespace Treewalk

/-- The construct that was being read. -/
inductive Context where
  | variableDeclaration
  | functionDeclaration
  | functionParams
  | block
  | callArguments
  | arrayLiteral
  | parenthesized
  | memberAccess
  | unsupportedSyntax
  deriving DecidableEq, Repr

/-- The phrase after "while parsing". -/
def Context.description : Context → String
  | .variableDeclaration => "a variable declaration"
  | .functionDeclaration => "a function declaration"
  | .functionParams => "function parameters"
  | .block => "a block"
  | .callArguments => "call arguments"
  | .arrayLiteral => "an array literal"
  | .parenthesized => "a parenthesized expression"
  | .memberAccess => "a member access"
  | .unsupportedSyntax => "an unsupported construct"

inductive ParseCause where
  | unexpectedToken (expected found : Tag)
  | expectedExpression (found : Tag)
  /-- The input ended before the bracket opened at `opened` was closed. -/
  | unclosedDelimiter (opener : Punct) (opened : Span)
  | expectedIdentifier (found : Tag)
  | returnOutsideFunction
  deriving DecidableEq, Repr

def ParseCause.message : ParseCause → String
  | .unexpectedToken expected found => "expected " ++ expected.displayName ++ ", found " ++ found.displayName
  | .expectedExpression found => "expected an expression, found " ++ found.displayName
  | .unclosedDelimiter opener _ => "unclosed delimiter " ++ (Tag.punct opener).displayName
  | .expectedIdentifier found => "expected an identifier, found " ++ found.displayName
  | .returnOutsideFunction => "`return` outside of a function"

structure ParseError where
  cause : ParseCause
  span : Span
  context : Option Context
  deriving DecidableEq, Repr

/-- Names the construct, unless one inside it was named already. -/
def ParseError.inContext (e : ParseError) (context : Context) : ParseError :=
  { e with context := some (e.context.getD context) }

/-- Why a source text is no program. -/
inductive SourceError where
  | lex (e : LexError)
  | parse (e : ParseError)
  deriving DecidableEq, Repr

def SourceError.span : SourceError → Span
  | .lex e => e.span
  | .parse e => e.span

end Treewalk
