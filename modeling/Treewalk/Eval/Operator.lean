/-
  Treewalk.Eval.Operator — the binary operators that have a rule, and property reads.
-/

import Treewalk.Value.Convert
import Treewalk.Text.Units
import Treewalk.Eval.Error

namespace Treewalk

/-- The sum of numbers, or the joined texts if either operand is text-like. -/
def Value.plus (a b : Value) : Value :=
  if a.concatenates || b.concatenates then .string (a.text ++ b.text)
  else .number (a.toNumber + b.toNumber)

/-- Only the four operators of arithmetic have a rule. -/
def BinaryOp.apply (op : BinaryOp) (a b : Value) : Except Cause Value :=
  match op with
  | .add => .ok (a.plus b)
  | .sub => .ok (.number (a.toNumber - b.toNumber))
  | .mul => .ok (.number (a.toNumber * b.toNumber))
  | .div => .ok (.number (a.toNumber / b.toNumber))
  | op => .error (.unsupportedOperator op)

namespace Value

/-- The largest index a key can spell. -/
def maxIndex : Nat := Nat.pow 2 64 - 1

/-- The index a key spells: decimal digits as a number is written, without zeros in front. -/
def index? (key : String) : Option Nat :=
  match Decimal.wholeNat? key.toList with
  | some i => if i ≤ maxIndex ∧ Decimal.digitChars i = key.toList then some i else none
  | none => none

/-- The property of a value under a key. -/
def property (object : Value) (key : String) : Except Cause Value :=
  match object with
  | .undefined => .error (.invalidPropertyAccess "undefined" key)
  | .null => .error (.invalidPropertyAccess "null" key)
  | .array es =>
    if key = "length" then .ok (.number (Decimal.ofNat es.length))
    else .ok (((index? key).bind (es[·]?)).getD .undefined)
  | .string s =>
    if key = "length" then .ok (.number (Decimal.ofNat (Text.units s).length))
    else .ok ((((index? key).bind ((Text.units s)[·]?)).map fun c => .string (String.singleton c)).getD .undefined)
  | .object _ _ members => .ok ((Table.get? members key).getD .undefined)
  | .bool _ | .number _ | .function _ | .native _ => .ok .undefined

end Value

end Treewalk
