/-
  Treewalk.Diagnostic — what is reported to the user, and what each error reports.
-/

import Treewalk.Diagnostic.Code
import Treewalk.Grammar.Error
import Treewalk.Eval.Error

namespace Treewalk

inductive Severity where
  | error
  | warning
  | note
  | help
  deriving DecidableEq, Repr

def Severity.text : Severity → String
  | .error => "error"
  | .warning => "warning"
  | .note => "note"
  | .help => "help"

/-- A remark on a span. The primary label is where the trouble is, others add to it. -/
structure Label where
  span : Span
  text : String
  isPrimary : Bool
  deriving DecidableEq, Repr

structure Diagnostic where
  code : Code
  severity : Severity
  message : String
  labels : List Label
  notes : List String
  deriving DecidableEq, Repr

namespace Diagnostic

/-- The diagnostic on one line. -/
def display (d : Diagnostic) : String := d.severity.text ++ "[" ++ d.code.text ++ "]: " ++ d.message

def isError (d : Diagnostic) : Bool := d.severity == .error

def primarySpan? (d : Diagnostic) : Option Span := (d.labels.find? (·.isPrimary)).map (·.span)

end Diagnostic

/-! ## Source errors -/

namespace LexCause

def code : LexCause → Code
  | .unexpectedChar _ => .unexpectedCharacter
  | .unterminatedComment => .unexpectedCharacter
  | .unterminatedString => .unterminatedString
  | .invalidNumber _ => .invalidNumber
  | .invalidEscape _ => .invalidEscape

def label : LexCause → String
  | .unexpectedChar _ => "not valid here"
  | .unterminatedString => "string starts here"
  | .unterminatedComment => "comment starts here"
  | .invalidNumber _ => "malformed number"
  | .invalidEscape _ => "malformed escape"

def notes : LexCause → List String
  | .unterminatedString => ["string literals must close on the line they start"]
  | _ => []

end LexCause

def LexError.diagnostic (e : LexError) : Diagnostic :=
  ⟨e.cause.code, .error, e.cause.message, [⟨e.span, e.cause.label, true⟩], e.cause.notes⟩

namespace ParseCause

def code : ParseCause → Code
  | .unexpectedToken _ _ => .unexpectedToken
  | .expectedExpression _ => .expectedExpression
  | .unclosedDelimiter _ _ => .unclosedDelimiter
  | .expectedIdentifier _ => .expectedIdentifier
  | .returnOutsideFunction => .returnOutsideFunction

def labels (span : Span) : ParseCause → List Label
  | .unclosedDelimiter opener opened =>
    [⟨span, "input ends here", true⟩, ⟨opened, (Tag.punct opener).displayName ++ " opened here", false⟩]
  | .returnOutsideFunction => [⟨span, "not inside a function body", true⟩]
  | _ => [⟨span, "unexpected here", true⟩]

def notes : ParseCause → List String
  | .returnOutsideFunction => ["`return` is only valid inside a function declaration"]
  | _ => []

end ParseCause

def ParseError.diagnostic (e : ParseError) : Diagnostic :=
  let context := e.context.toList.map fun c => "while parsing " ++ c.description
  ⟨e.cause.code, .error, e.cause.message, e.cause.labels e.span, e.cause.notes ++ context⟩

def SourceError.diagnostic : SourceError → Diagnostic
  | .lex e => e.diagnostic
  | .parse e => e.diagnostic

/-! ## Evaluation errors -/

namespace Cause

def code : Cause → Code
  | .duplicateDeclaration _ => .duplicateDeclaration
  | .unsupportedNode _ => .unsupportedNode
  | .unsupportedOperator _ => .unsupportedOperator
  | .notCallable _ => .notCallable
  | .invalidPropertyAccess _ _ => .invalidPropertyAccess
  | .stackOverflow _ => .stackOverflow
  | .custom _ => .other

def label : Cause → String
  | .duplicateDeclaration name => "`" ++ name ++ "` declared again here"
  | .unsupportedNode kind => kind ++ " cannot be evaluated"
  | .unsupportedOperator op => "`" ++ op.text ++ "` used here"
  | .notCallable _ => "called here"
  | .invalidPropertyAccess base _ => "this is " ++ base
  | .stackOverflow _ => "call nested too deeply"
  | .custom _ => "error occurred here"

def help : Cause → List String
  | .unsupportedOperator _ => ["help: only `+`, `-`, `*` and `/` can be evaluated"]
  | .duplicateDeclaration _ => ["help: a name can be declared once per scope"]
  | _ => []

end Cause

def EvalError.diagnostic (e : EvalError) : Diagnostic :=
  let labels := e.span.toList.map fun s => ⟨s, e.cause.label, true⟩
  ⟨e.cause.code, .error, e.cause.message, labels, e.notes ++ e.cause.help⟩

end Treewalk
