/-
  Treewalk.CommandLine.Options — the arguments of `run` and `eval`. Flags may stand anywhere, a
  later one overrides an earlier one of its kind; the one argument that is no flag is the input.
-/

import Treewalk.Eval
import Treewalk.Diagnostic.Report

namespace Treewalk

structure RunOptions where
  /-- The file or source text to run. -/
  input : Option String
  sourceName : String
  color : ColorMode
  eval : EvalOptions
  deriving DecidableEq, Repr

inductive OptionError where
  | invalidColor (value : String)
  | invalidDepth (value : String)
  | unknownOption (argument : String)
  /-- An input after the input. -/
  | unexpectedArgument (argument : String)
  deriving DecidableEq, Repr

def OptionError.message : OptionError → String
  | .invalidColor v => "invalid color mode '" ++ v ++ "' (expected auto, always or never)"
  | .invalidDepth v => "invalid call depth '" ++ v ++ "'"
  | .unknownOption a => "unknown option '" ++ a ++ "'"
  | .unexpectedArgument a => "unexpected argument '" ++ a ++ "'"

namespace RunOptions

def default : RunOptions := ⟨none, "<input>", .auto, EvalOptions.default⟩

/-- What follows `front` in a text that starts with it. -/
def after? (front text : String) : Option String :=
  if front.toList.isPrefixOf text.toList then some (String.ofList (text.toList.drop front.length)) else none

/-- The largest depth that can be asked for. -/
def maxDepth : Nat := Nat.pow 2 64 - 1

/-- A depth: decimal digits after an optional plus. -/
def depth? (s : String) : Option Nat :=
  let digits := match s.toList with
    | '+' :: r => r
    | r => r
  (Decimal.wholeNat? digits).filter (· ≤ maxDepth)

/-- One argument. -/
inductive Argument where
  | color (value : String)
  | depth (value : String)
  | truthyRedeclaration
  | unknown (text : String)
  | input (text : String)
  deriving DecidableEq, Repr

def Argument.of (text : String) : Argument :=
  match after? "--color=" text, after? "--max-call-depth=" text with
  | some v, _ => .color v
  | none, some v => .depth v
  | none, none =>
    if text = "--truthy-redeclaration" then .truthyRedeclaration
    else if (after? "--" text).isSome then .unknown text
    else .input text

/-- The options after one more argument. -/
def take (o : RunOptions) : Argument → Except OptionError RunOptions
  | .color v =>
    match ColorMode.ofText? v with
    | some m => .ok { o with color := m }
    | none => .error (.invalidColor v)
  | .depth v =>
    match depth? v with
    | some n => .ok { o with eval := { o.eval with maxCallDepth := n } }
    | none => .error (.invalidDepth v)
  | .truthyRedeclaration => .ok { o with eval := { o.eval with redeclaration := .truthy } }
  | .unknown a => .error (.unknownOption a)
  | .input a =>
    match o.input with
    | none => .ok { o with input := some a }
    | some _ => .error (.unexpectedArgument a)

def readFrom (o : RunOptions) : List String → Except OptionError RunOptions
  | [] => .ok o
  | a :: as =>
    match o.take (Argument.of a) with
    | .ok o => o.readFrom as
    | .error e => .error e

/-- Reads arguments from left to right; the first that cannot be taken is the error. -/
def read (args : List String) : Except OptionError RunOptions := default.readFrom args

end RunOptions

end Treewalk
