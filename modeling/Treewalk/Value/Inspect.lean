/-
  Treewalk.Value.Inspect — values as the console shows them: strings quoted, functions and objects
  by name, arrays to a depth.
-/

import Treewalk.Value.Convert

namespace Treewalk

namespace Quoted

/-- The first quote mark that the text lacks, the single one if it has all three. -/
def mark (cs : List Char) : Char :=
  if '\'' ∉ cs then '\'' else if '"' ∉ cs then '"' else if '`' ∉ cs then '`' else '\''

def escapeChar (quote c : Char) : List Char :=
  match c with
  | '\n' => ['\\', 'n']
  | '\t' => ['\\', 't']
  | '\r' => ['\\', 'r']
  | '\\' => ['\\', '\\']
  | c => if c = quote then ['\\', c] else [c]

def encode (cs : List Char) : List Char :=
  let quote := mark cs
  quote :: (cs.flatMap (escapeChar quote) ++ [quote])

end Quoted

/-- A string as the console shows it inside other values. -/
def quoted (s : String) : String := String.ofList (Quoted.encode s.toList)

namespace Value

/-- Arrays deeper than this are only named. -/
def inspectDepth : Nat := 2

mutual

def inspectAt (depth : Nat) : Value → String
  | .string s => quoted s
  | .array [] => "[]"
  | .array (v :: vs) =>
    if inspectDepth < depth then "[Array]"
    else "[ " ++ ", ".intercalate (inspectAt (depth + 1) v :: inspectAll (depth + 1) vs) ++ " ]"
  | .function c => "[Function: " ++ c.name ++ "]"
  | .native name => "[Function: " ++ name ++ "]"
  | .object _ name [] => "Object [" ++ name ++ "] \x7b\x7d"
  | .object _ name ((k, v) :: ms) =>
    "Object [" ++ name ++ "] \x7b " ++
      ", ".intercalate ((k ++ ": " ++ inspectAt (depth + 1) v) :: inspectMembers (depth + 1) ms) ++ " \x7d"
  | v => v.text

def inspectAll (depth : Nat) : List Value → List String
  | [] => []
  | v :: vs => inspectAt depth v :: inspectAll depth vs

def inspectMembers (depth : Nat) : List (String × Value) → List String
  | [] => []
  | (k, v) :: ms => (k ++ ": " ++ inspectAt depth v) :: inspectMembers depth ms

end

def inspect (v : Value) : String := inspectAt 0 v

/-- A console argument: a string shows as it is. -/
def consoleText : Value → String
  | .string s => s
  | v => v.inspect

/-- The line a console call prints. -/
def consoleLine (args : List Value) : String := " ".intercalate (args.map consoleText)

end Value

end Treewalk
