/-
  Treewalk.Token.Error — what is wrong with a source text that has no tokens, and where.
-/

import Treewalk.Span

namespace Treewalk

inductive LexCause where
  /-- A character that starts no token. -/
  | unexpectedChar (found : Char)
  | unterminatedString
  | unterminatedComment
  | invalidNumber (text : String)
  | invalidEscape (text : String)
  deriving DecidableEq, Repr

def LexCause.message : LexCause → String
  | .unexpectedChar c => "unexpected character `" ++ String.singleton c ++ "`"
  | .unterminatedString => "unterminated string literal"
  | .unterminatedComment => "unterminated block comment"
  | .invalidNumber t => "invalid number literal `" ++ t ++ "`"
  | .invalidEscape t => "invalid escape sequence `" ++ t ++ "`"

structure LexError where
  cause : LexCause
  span : Span
  deriving DecidableEq, Repr

end Treewalk
