/-
  Treewalk.Text.Units — text as UTF-16 code units, in which strings are measured and indexed.
-/

namespace Treewalk.Text

/-- What half of a surrogate pair reads as on its own. -/
def replacement : Char := '\uFFFD'

/-- The code units of a character, each as the character it is when taken alone. -/
def charUnits (c : Char) : List Char := if c.toNat < 0x10000 then [c] else [replacement, replacement]

/-- The code units of a text, each as the character it is when taken alone. -/
def units (s : String) : List Char := s.toList.flatMap charUnits

end Treewalk.Text
