/-
  Treewalk.Decimal.Nearest — the binary64 number nearest to a fraction, halves going to the even
  neighbour, worked out in whole numbers.
-/

import Treewalk.Decimal

namespace Treewalk.Decimal

/-- The least power of two that a binary64 number is a multiple of. -/
def leastExponent : Int := -1074

/-- The bits of positive infinity; no finite positive number has larger ones. -/
def infinityBits : Nat := 0x7ff0000000000000

/-- `2 ^ e` as a fraction. -/
def twoPow (e : Int) : Nat × Nat := (Nat.pow 2 e.toNat, Nat.pow 2 (-e).toNat)

/-- `10 ^ e` as a fraction. -/
def tenPow (e : Int) : Nat × Nat := (Nat.pow 10 e.toNat, Nat.pow 10 (-e).toNat)

/-- `a / b` rounded to a whole number, a half to the even one. -/
def roundHalfEven (a b : Nat) : Nat :=
  let q := a / b
  let r := a % b
  if b < 2 * r ∨ (2 * r = b ∧ q % 2 = 1) then q + 1 else q

/-- The exponent of the last of 53 significant bits of `a / b`, not below the least one. -/
def lastBit (a b : Nat) : Int :=
  let e : Int := (Nat.log2 a : Int) - (Nat.log2 b : Int) - 52
  let (up, down) := twoPow e
  max leastExponent (if a * down < Nat.pow 2 52 * (b * up) then e - 1 else e)

/-- The bits of the number nearest to `a / b`. A significand that rounds up to the next power of
    two carries into the exponent field by itself. -/
def nearestBits (a b : Nat) : Nat :=
  if a = 0 then 0
  else
    let e := lastBit a b
    let (up, down) := twoPow e
    min infinityBits ((e - leastExponent).toNat * Nat.pow 2 52 + roundHalfEven (a * down) (b * up))

/-- The number nearest to `a / b`. -/
def nearest (a b : Nat) : Float := Float.ofBits (UInt64.ofNat (nearestBits a b))

/-- The number nearest to a whole number. -/
def ofNat (n : Nat) : Float := nearest n 1

/-- The number nearest to a decimal. Far outside the range the power of ten is not worked out. -/
def toFloat (d : Decimal) : Float :=
  if d.digits = 0 ∨ d.point < -326 then nearest 0 1
  else if 310 < d.point then nearest (Nat.pow 10 310) 1
  else
    let (up, down) := tenPow d.scale
    nearest (d.digits * up) down

end Treewalk.Decimal
