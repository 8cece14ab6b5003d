/-
  Treewalk.Decimal.Style — the ways a number is written: as the console shows it, as a token's
  payload, and in a tree's outline. All three write the same digits and differ in where the point
  and the exponent go.
-/

import Treewalk.Decimal.Shortest

namespace Treewalk.Decimal

structure Style where
  /-- Numbers whose point lies from here on need no exponent; without a bound none does. -/
  least : Option Int
  /-- Numbers whose point lies up to here need no exponent; without a bound none does. -/
  most : Option Int
  /-- Whether an exponent that is not negative carries a plus. -/
  plus : Bool
  /-- Whether a whole number without exponent ends in `.0`. -/
  wholeMark : Bool
  /-- Whether zero keeps its sign. -/
  signedZero : Bool
  infinity : String
  deriving Repr

namespace Style

/-- Plain from 0.000001 up to 21 places, an exponent with its sign otherwise. -/
def console : Style := ⟨some (-5), some 21, true, false, false, "Infinity"⟩

/-- Plain from 0.0001 up to 16 places, whole numbers marked. -/
def token : Style := ⟨some (-3), some 16, false, true, true, "inf"⟩

/-- Always plain. -/
def outline : Style := ⟨none, none, false, false, true, "inf"⟩

def isPlain (st : Style) (point : Int) : Bool :=
  st.least.all (decide <| · ≤ point) && st.most.all (decide <| point ≤ ·)

def zeros (n : Int) : List Char := List.replicate n.toNat '0'

/-- Digits with the point at its place and no exponent. -/
def plain (st : Style) (digits : List Char) (point : Int) : List Char :=
  if (digits.length : Int) ≤ point then
    digits ++ zeros (point - digits.length) ++ (if st.wholeMark then ['.', '0'] else [])
  else if 0 < point then digits.take point.toNat ++ ['.'] ++ digits.drop point.toNat
  else ['0', '.'] ++ zeros (-point) ++ digits

/-- An exponent after its mark. -/
def exponentText (st : Style) (e : Int) : List Char :=
  (if e < 0 then ['-'] else if st.plus then ['+'] else []) ++ digitChars e.natAbs

/-- Digits with the point after the first, and an exponent. -/
def scientific (st : Style) (digits : List Char) (point : Int) : List Char :=
  digits.take 1 ++ (if digits.length ≤ 1 then [] else ['.'] ++ digits.drop 1) ++ ['e'] ++
    st.exponentText (point - 1)

/-- The text of a positive decimal. -/
def layout (st : Style) (d : Decimal) : List Char :=
  if st.isPlain d.point then st.plain (digitChars d.digits) d.point
  else st.scientific (digitChars d.digits) d.point

def isNegative (x : Float) : Bool := Nat.pow 2 63 ≤ x.toBits.toNat

/-- The text of any number. -/
def write (st : Style) (x : Float) : String :=
  if x.isNaN then "NaN"
  else if x == 0 then
    String.ofList ((if st.signedZero && isNegative x then ['-'] else []) ++ st.plain ['0'] 1)
  else
    let size := if x.isInf then st.infinity.toList else st.layout (ofFloat x)
    String.ofList ((if isNegative x then ['-'] else []) ++ size)

end Style

/-- The text the console shows for a number. -/
def numberText (x : Float) : String := Style.console.write x

end Treewalk.Decimal
