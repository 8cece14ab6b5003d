/-
  Treewalk.Token.Escape — the text that the body of a string literal stands for.
-/

namespace Treewalk.Escape

/-- The bytes that characters take in UTF-8. -/
def byteLength (cs : List Char) : Nat := cs.foldr (fun c n => c.utf8Size + n) 0

def isHexDigit (c : Char) : Bool :=
  c.isDigit || ('a' ≤ c && c ≤ 'f') || ('A' ≤ c && c ≤ 'F')

def hexValue (c : Char) : Nat :=
  if c.isDigit then c.toNat - '0'.toNat
  else if 'a' ≤ c && c ≤ 'f' then c.toNat - 'a'.toNat + 10
  else c.toNat - 'A'.toNat + 10

/-- What a run of hexadecimal digits denotes. -/
def hexNat (cs : List Char) : Nat := cs.foldl (fun n c => 16 * n + hexValue c) 0

/-- The character with a code point, if there is one. -/
def scalar? (n : Nat) : Option Char := if n.isValidChar then some (Char.ofNat n) else none

/-- Hexadecimal digits after an optional plus, and nothing else. -/
def codePoint? (cs : List Char) : Option Nat :=
  let digits := match cs with
    | '+' :: r => r
    | r => r
  if digits ≠ [] ∧ digits.all isHexDigit then some (hexNat digits) else none

/-- A character and how many characters after the escape letter spell it; or, on failure, how many
    bytes from the backslash on are at fault. -/
abbrev Reading := Except Nat (Char × Nat)

/-- Exactly `n` hexadecimal digits. -/
def fixed (n : Nat) (rest : List Char) : Reading :=
  let digits := (rest.take n).takeWhile isHexDigit
  if digits.length = n then
    match scalar? (hexNat digits) with
    | some c => .ok (c, n)
    | none => .error (2 + n)
  else .error (2 + digits.length)

/-- A code point up to a closing brace, in at most six bytes. -/
def braced (rest : List Char) : Reading :=
  let inner := rest.takeWhile (· ≠ '\x7d')
  if inner.length = rest.length ∨ inner = [] ∨ 6 < byteLength inner then .error (3 + byteLength inner)
  else
    match (codePoint? inner).bind scalar? with
    | some c => .ok (c, inner.length + 2)
    | none => .error (2 + byteLength inner)

/-- What a backslash and the letter `e` stand for; a letter without a rule stands for itself. -/
def read (e : Char) (rest : List Char) : Reading :=
  match e with
  | 'n' => .ok ('\n', 0)
  | 't' => .ok ('\t', 0)
  | 'r' => .ok ('\r', 0)
  | 'b' => .ok ('\x08', 0)
  | 'f' => .ok ('\x0c', 0)
  | 'v' => .ok ('\x0b', 0)
  | '0' => .ok ('\x00', 0)
  | 'x' => fixed 2 rest
  | 'u' =>
    match rest with
    | '\x7b' :: r => braced r
    | r => fixed 4 r
  | e => .ok (e, 0)

/-- The characters that take exactly `n` bytes, unless the last byte is inside a character. -/
def takeBytes? : Nat → List Char → Option (List Char)
  | 0, _ => some []
  | _ + 1, [] => none
  | n + 1, c :: cs => if c.utf8Size ≤ n + 1 then (takeBytes? (n + 1 - c.utf8Size) cs).map (c :: ·) else none

/-- A malformed escape: its byte offsets in the body and its text. -/
structure Malformed where
  start : Nat
  stop : Nat
  text : String
  deriving DecidableEq, Repr

/-- The first `bytes` bytes of what starts at offset `at` are at fault; a cut inside a character
    leaves only the backslash to show. -/
def malformed (pos : Nat) (fromBackslash : List Char) (bytes : Nat) : Malformed :=
  let n := min bytes (byteLength fromBackslash)
  ⟨pos, pos + n, String.ofList ((takeBytes? n fromBackslash).getD ['\\'])⟩

/-- Resolves the escapes of a body that starts at byte offset `pos`. -/
def decodeFrom (pos : Nat) (body : List Char) : Except Malformed (List Char) :=
  match body with
  | [] => .ok []
  | '\\' :: e :: rest =>
    match read e rest with
    | .error bytes => .error (malformed pos body bytes)
    | .ok (c, n) =>
      (decodeFrom (pos + 1 + e.utf8Size + byteLength (rest.take n)) (rest.drop n)).map (c :: ·)
  | c :: rest => (decodeFrom (pos + c.utf8Size) rest).map (c :: ·)
termination_by body.length
decreasing_by all_goals simp only [List.length_cons, List.length_drop]; omega

def decode (body : List Char) : Except Malformed (List Char) := decodeFrom 0 body

end Treewalk.Escape
