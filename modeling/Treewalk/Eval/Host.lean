/-
  Treewalk.Eval.Host — functions that the surroundings of a program provide.

  A host function sees its receiver and arguments. It answers with a value or an error and may print
  console lines; it can touch nothing else.
-/

import Treewalk.Value.Inspect
import Treewalk.Eval.Error

namespace Treewalk

/-- The output a console line is meant for. -/
inductive Stream where
  | out
  | err
  deriving DecidableEq, Repr

structure Line where
  stream : Stream
  text : String
  deriving DecidableEq, Repr

/-- What a host function did. -/
structure Reply where
  result : Except EvalError Value
  lines : List Line

/-- The functions of the surroundings, by name. `tinted` asks for colored console lines. -/
structure Host where
  call : (name : String) → (tinted : Bool) → (this : Value) → (args : List Value) → Reply

/-- Colors of console lines. -/
inductive Tint where
  | green
  | red
  | yellow
  deriving DecidableEq, Repr

namespace Tint

def code : Tint → String
  | .red => "31"
  | .green => "32"
  | .yellow => "33"

/-- Text between the escape sequences that switch the color on and off. -/
def paint (t : Tint) (text : String) : String := "\x1b[" ++ t.code ++ "m" ++ text ++ "\x1b[0m"

end Tint

namespace Console

/-- Prints the arguments as one line. -/
def print (stream : Stream) (tint : Tint) (tinted : Bool) (args : List Value) : Reply :=
  let text := Value.consoleLine args
  ⟨.ok .undefined, [⟨stream, if tinted then tint.paint text else text⟩]⟩

/-- The console functions; any other name does nothing. -/
def host : Host where
  call name tinted _ args :=
    match name with
    | "log" | "info" => print .out .green tinted args
    | "error" => print .err .red tinted args
    | "warn" => print .err .yellow tinted args
    | _ => ⟨.ok .undefined, []⟩

def methods : List String := ["log", "info", "error", "warn"]

/-- The console object. -/
def object (serial : Nat) : Value := .object serial "console" (methods.map fun name => (name, .native name))

end Console

end Treewalk
