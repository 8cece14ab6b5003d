/-
  Treewalk.Decimal — decimal numerals: digits and a power of ten, and how they are read.
-/

namespace Treewalk

/-- The number `digits · 10 ^ scale`. -/
structure Decimal where
  digits : Nat
  scale : Int
  deriving DecidableEq, Repr, Inhabited

namespace Decimal

def digitValue (c : Char) : Nat := c.toNat - '0'.toNat

/-- What a run of decimal digits denotes. -/
def natOf (cs : List Char) : Nat := cs.foldl (fun n c => 10 * n + digitValue c) 0

/-- The digits in front of a text, and what follows them. -/
def spanDigits (cs : List Char) : List Char × List Char := (cs.takeWhile Char.isDigit, cs.dropWhile Char.isDigit)

/-- A point and the digits behind it, if the text starts with a point. -/
def spanFraction : List Char → List Char × List Char
  | '.' :: cs => spanDigits cs
  | cs => ([], cs)

/-- One or more digits and nothing else. -/
def wholeNat? (cs : List Char) : Option Nat :=
  if cs ≠ [] ∧ cs.all Char.isDigit then some (natOf cs) else none

/-- Digits after an optional sign and nothing else. -/
def signedInt? : List Char → Option Int
  | '+' :: cs => (wholeNat? cs).map Int.ofNat
  | '-' :: cs => (wholeNat? cs).map fun n => -Int.ofNat n
  | cs => (wholeNat? cs).map Int.ofNat

/-- An exponent part: nothing at all, or `e` or `E` and a number. -/
def exponent? : List Char → Option Int
  | [] => some 0
  | c :: cs => if c = 'e' ∨ c = 'E' then signedInt? cs else none

/-- Reads a numeral without a sign: digits, then a point and digits, at least one digit in all,
    then an exponent part; the whole text must be used. -/
def read? (cs : List Char) : Option Decimal :=
  let (whole, afterWhole) := spanDigits cs
  let (fraction, rest) := spanFraction afterWhole
  if whole = [] ∧ fraction = [] then none
  else (exponent? rest).map fun e => ⟨natOf (whole ++ fraction), e - fraction.length⟩

/-- The decimal digits of a number, at least one. -/
def digitChars (n : Nat) : List Char := Nat.toDigits 10 n

/-- Where the point stands, counted from the front of the digits: the number is below
    `10 ^ point`, and not below a tenth of that unless it is zero. -/
def point (d : Decimal) : Int := (digitChars d.digits).length + d.scale

/-- The same number with no zero at the end of its digits. -/
def trim (d : Decimal) : Decimal :=
  if h : d.digits ≠ 0 ∧ d.digits % 10 = 0 then trim ⟨d.digits / 10, d.scale + 1⟩ else d
termination_by d.digits
decreasing_by omega

end Decimal

end Treewalk
