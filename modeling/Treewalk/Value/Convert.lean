/-
  Treewalk.Value.Convert — values as text and as numbers.
-/

import Treewalk.Value
import Treewalk.Text.Blank
import Treewalk.Token.Escape
import Treewalk.Decimal.Style

namespace Treewalk

/-! ## Numbers in text -/

namespace NumberText

def nan : Float := Float.ofBits 0x7ff8000000000000

def infinity : Float := Float.ofBits 0x7ff0000000000000

def signed (negative : Bool) (x : Float) : Float := if negative then -x else x

/-- Hexadecimal digits, taken in one by one. -/
def hex (digits : List Char) : Float :=
  if digits ≠ [] ∧ digits.all Escape.isHexDigit then
    digits.foldl (fun x c => x * 16 + Decimal.ofNat (Escape.hexValue c)) 0
  else nan

/-- A sign, if there is one, and what follows it. -/
def splitSign : List Char → Bool × List Char
  | '-' :: cs => (true, cs)
  | '+' :: cs => (false, cs)
  | cs => (false, cs)

/-- A decimal numeral or `Infinity`, with an optional sign. -/
def decimal (cs : List Char) : Float :=
  let (negative, unsigned) := splitSign cs
  if unsigned = "Infinity".toList then signed negative infinity
  else
    match Decimal.read? unsigned with
    | some d => signed negative d.toFloat
    | none => nan

/-- The number a text denotes: zero if it is blank, hexadecimal without a sign after `0x`, a decimal
    numeral otherwise. -/
def read (s : String) : Float :=
  match Text.trim s.toList with
  | [] => 0
  | '0' :: 'x' :: digits => hex digits
  | '0' :: 'X' :: digits => hex digits
  | cs => decimal cs

end NumberText

namespace Value

/-! ## To numbers -/

/-- An array counts as its only element, if that is not a boolean; an empty one is zero. -/
def toNumber : Value → Float
  | .undefined | .function _ | .native _ | .object _ _ _ => NumberText.nan
  | .null => 0
  | .bool b => if b then 1 else 0
  | .number x => x
  | .string s => NumberText.read s
  | .array [] => 0
  | .array [.undefined] => 0
  | .array [.null] => 0
  | .array [.bool _] => NumberText.nan
  | .array [v] => toNumber v
  | .array _ => NumberText.nan

/-! ## To text -/

def closureText (c : Closure) : String :=
  "function " ++ c.name ++ "(" ++ ", ".intercalate (c.params.map (·.name)) ++ ") \x7b ... \x7d"

mutual

/-- The text of a value, as `+` joins it and as a property key. -/
def text : Value → String
  | .undefined => "undefined"
  | .null => "null"
  | .bool b => if b then "true" else "false"
  | .number x => Decimal.numberText x
  | .string s => s
  | .array es => ",".intercalate (elementTexts es)
  | .function c => closureText c
  | .native name => "function " ++ name ++ "() \x7b [native code] \x7d"
  | .object _ _ _ => "[object Object]"

/-- Elements that are missing or null have no text. -/
def elementTexts : List Value → List String
  | [] => []
  | v :: vs => (if v.isNullish then "" else text v) :: elementTexts vs

end

/-- Whether `+` joins texts when this is an operand. -/
def concatenates : Value → Bool
  | .string _ | .array _ | .function _ | .native _ | .object _ _ _ => true
  | _ => false

end Value

end Treewalk
