/-
  Treewalk.Eval.Error — why an evaluation stopped, and at which node.
-/

import Treewalk.Node

namespace Treewalk

inductive Cause where
  | duplicateDeclaration (name : String)
  | unsupportedNode (kind : String)
  | unsupportedOperator (op : BinaryOp)
  | notCallable (callee : String)
  /-- A property was read from `undefined` or `null`. -/
  | invalidPropertyAccess (base property : String)
  | stackOverflow (limit : Nat)
  | custom (message : String)
  deriving DecidableEq, Repr

def Cause.message : Cause → String
  | .duplicateDeclaration name => "duplicate declaration of `" ++ name ++ "`"
  | .unsupportedNode kind => "unsupported syntax: " ++ kind
  | .unsupportedOperator op => "unsupported operator: " ++ op.text
  | .notCallable callee => callee ++ " is not a function"
  | .invalidPropertyAccess base property =>
    "cannot read properties of " ++ base ++ " (reading '" ++ property ++ "')"
  | .stackOverflow _ => "maximum call stack size exceeded"
  | .custom message => message

structure EvalError where
  cause : Cause
  /-- The innermost node that was being evaluated. -/
  span : Option Span
  notes : List String
  deriving DecidableEq, Repr

namespace EvalError

/-- What is noted with a cause from the start. -/
def firstNotes : Cause → List String
  | .stackOverflow limit => [s!"calls may nest at most {limit} deep"]
  | _ => []

def of (cause : Cause) : EvalError := ⟨cause, none, firstNotes cause⟩

/-- Attaches a span, in place of any other. -/
def withSpan (e : EvalError) (span : Span) : EvalError := { e with span := some span }

/-- Attaches a span unless an inner node already did. -/
def orSpan (e : EvalError) (span : Span) : EvalError := { e with span := some (e.span.getD span) }

/-- Whether a limit was met, and not a fault of the program. -/
def isResource (e : EvalError) : Bool := e.cause matches .stackOverflow _

end EvalError

end Treewalk
