/-
  Treewalk.Diagnostic.Code — the codes of errors: `E0…` and `E1…` for source text, `E6…` for
  evaluation.
-/

namespace Treewalk

inductive Code where
  | unexpectedCharacter
  | unterminatedString
  | invalidNumber
  | invalidEscape
  | unexpectedToken
  | expectedExpression
  | unclosedDelimiter
  | expectedIdentifier
  | returnOutsideFunction
  | duplicateDeclaration
  | unsupportedNode
  | unsupportedOperator
  | notCallable
  | invalidPropertyAccess
  | stackOverflow
  | other
  deriving DecidableEq, Repr

namespace Code

def all : List Code :=
  [unexpectedCharacter, unterminatedString, invalidNumber, invalidEscape, unexpectedToken,
   expectedExpression, unclosedDelimiter, expectedIdentifier, returnOutsideFunction,
   duplicateDeclaration, unsupportedNode, unsupportedOperator, notCallable, invalidPropertyAccess,
   stackOverflow, other]

def text : Code → String
  | unexpectedCharacter => "E0001"
  | unterminatedString => "E0002"
  | invalidNumber => "E0003"
  | invalidEscape => "E0004"
  | unexpectedToken => "E1001"
  | expectedExpression => "E1002"
  | unclosedDelimiter => "E1003"
  | expectedIdentifier => "E1004"
  | returnOutsideFunction => "E1005"
  | duplicateDeclaration => "E6001"
  | unsupportedNode => "E6002"
  | unsupportedOperator => "E6003"
  | notCallable => "E6004"
  | invalidPropertyAccess => "E6005"
  | stackOverflow => "E6006"
  | other => "E6099"

def description : Code → String
  | unexpectedCharacter => "unexpected character in source"
  | unterminatedString => "unterminated string literal"
  | invalidNumber => "invalid number literal"
  | invalidEscape => "invalid escape sequence"
  | unexpectedToken => "unexpected token"
  | expectedExpression => "expected an expression"
  | unclosedDelimiter => "unclosed delimiter"
  | expectedIdentifier => "expected an identifier"
  | returnOutsideFunction => "`return` outside of a function"
  | duplicateDeclaration => "a name was declared twice in the same scope"
  | unsupportedNode => "the evaluator has no rule for this syntax"
  | unsupportedOperator => "only `+`, `-`, `*` and `/` can be evaluated"
  | notCallable => "the called value is not a function"
  | invalidPropertyAccess => "a property was read from `undefined` or `null`"
  | stackOverflow => "the maximum call stack size was exceeded"
  | other => "runtime error"

/-- Whether the source text is at fault, not its evaluation. -/
def isOfSource : Code → Bool
  | unexpectedCharacter | unterminatedString | invalidNumber | invalidEscape | unexpectedToken
  | expectedExpression | unclosedDelimiter | expectedIdentifier | returnOutsideFunction => true
  | _ => false

/-- Reads a code in capital or small letters. -/
def ofText? (s : String) : Option Code :=
  all.find? fun c => c.text.toList.map Char.toLower == s.toList.map Char.toLower

end Code

end Treewalk
