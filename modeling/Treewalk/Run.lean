/-
  Treewalk.Run — a source text run from start to end: parsed, evaluated with fresh globals, and
  reported on.
-/

import Treewalk.Grammar.Program
import Treewalk.Session
import Treewalk.Diagnostic.Report

namespace Treewalk

/-- How a run ended. -/
inductive Status where
  | completed
  | aborted (e : EvalError)
  | rejected (e : SourceError)
  deriving DecidableEq, Repr

/-- The diagnostic of a run that did not complete. -/
def Status.diagnostic? : Status → Option Diagnostic
  | .completed => none
  | .aborted e => some e.diagnostic
  | .rejected e => some e.diagnostic

structure Outcome where
  status : Status
  out : String
  err : String
  deriving DecidableEq, Repr

namespace Outcome

def isCompleted (o : Outcome) : Bool := o.status matches .completed

/-- What is reported on a run of a source, nothing if it completed. -/
def report (o : Outcome) (source : Source) (colors : Bool) : String :=
  match o.status.diagnostic? with
  | some d => d.report source colors
  | none => ""

end Outcome

/-- Runs a source text with only the console in scope. -/
def run (options : EvalOptions) (text : String) : Outcome :=
  match parse text with
  | .error e => ⟨.rejected e, "", ""⟩
  | .ok tree =>
    let (result, s) := (Session.new ⟨options, Console.host, false⟩ true []).evaluate tree
    let status := match result with
      | .ok _ => .completed
      | .error e => .aborted e
    ⟨status, s.store.out, s.store.err⟩

end Treewalk
