/-
  Treewalk.Decimal.Shortest — the shortest decimal that reads back as a given binary64 number.

  A number `m · 2 ^ q` is what every decimal between two bounds half a step away reads as, the
  bounds included when `m` is even. The grids of one, two, … digits are tried in turn; on each,
  only the two points beside the number can lie between the bounds.
-/

import Treewalk.Decimal.Nearest

namespace Treewalk.Decimal

/-- A positive number `significand · 2 ^ exponent`. -/
structure Binary where
  significand : Nat
  exponent : Int
  deriving DecidableEq, Repr

namespace Binary

/-- The size of a finite number. -/
def ofFloat (x : Float) : Binary :=
  let bits : Nat := x.toBits.toNat % Nat.pow 2 63
  let field : Nat := bits / Nat.pow 2 52
  let fraction : Nat := bits % Nat.pow 2 52
  if field = 0 then ⟨fraction, leastExponent⟩ else ⟨fraction + Nat.pow 2 52, (field : Int) - 1 + leastExponent⟩

/-- The number in quarters of its last place. -/
def quarters (b : Binary) : Nat := 4 * b.significand

/-- The upper bound in quarters of the last place. -/
def upper (b : Binary) : Nat := b.quarters + 2

/-- The lower bound in quarters of the last place: below a power of two the step is half as wide. -/
def lower (b : Binary) : Nat :=
  if b.significand = Nat.pow 2 52 ∧ leastExponent < b.exponent then b.quarters - 1 else b.quarters - 2

/-- A quarter of the last place, as a fraction. -/
def quarter (b : Binary) : Nat × Nat := twoPow (b.exponent - 2)

/-- Whether a decimal reads as this number. -/
def holds (b : Binary) (d : Decimal) : Bool :=
  let (up, down) := b.quarter
  let (tenUp, tenDown) := tenPow d.scale
  let x := d.digits * tenUp * down
  let lo := b.lower * up * tenDown
  let hi := b.upper * up * tenDown
  if b.significand % 2 = 0 then decide (lo ≤ x ∧ x ≤ hi) else decide (lo < x ∧ x < hi)

/-- Ten to this power is above every binary64 number, and its inverse below every positive one. -/
def span10 : Nat := 340

/-- The place of the point: the least power of ten above the number. -/
def point (b : Binary) : Int :=
  let (up, down) := b.quarter
  ((digitChars (b.quarters * up * Nat.pow 10 span10 / down)).length : Int) - span10

/-- The nearer of the two grid points beside the number that read as it, the upper at a tie. -/
def onGrid (b : Binary) (scale : Int) : Option Decimal :=
  let (up, down) := b.quarter
  let (tenUp, tenDown) := tenPow scale
  let a := b.quarters * up * tenDown
  let step := down * tenUp
  let below : Decimal := ⟨a / step, scale⟩
  let above : Decimal := ⟨a / step + 1, scale⟩
  match b.holds below, b.holds above with
  | true, true => some (if step ≤ 2 * (a % step) then above else below)
  | true, false => some below
  | false, true => some above
  | false, false => none

/-- The first hit on the grids of `n`, `n + 1`, … digits. -/
def search (b : Binary) : (tries n : Nat) → Decimal
  | 0, _ => ⟨0, 0⟩
  | tries + 1, n => (b.onGrid (b.point - n)).getD (b.search tries (n + 1))

/-- Seventeen digits tell any two numbers apart. -/
def shortest (b : Binary) : Decimal := (b.search 17 1).trim

end Binary

/-- The shortest decimal that reads as the size of a finite number, of those the nearest. -/
def ofFloat (x : Float) : Decimal := (Binary.ofFloat x).shortest

end Treewalk.Decimal
