/-
  Treewalk.Span — half-open ranges of byte offsets into a source text.
-/

namespace Treewalk

structure Span where
  start : Nat
  stop : Nat
  deriving DecidableEq, Repr, Inhabited

namespace Span

/-- The span of a node that stands for no source text. -/
def none : Span := ⟨0, 0⟩

def point (offset : Nat) : Span := ⟨offset, offset⟩

/-- The least span that covers both. -/
def merge (a b : Span) : Span := ⟨min a.start b.start, max a.stop b.stop⟩

def length (s : Span) : Nat := s.stop - s.start

def isEmpty (s : Span) : Bool := s.start == s.stop

def text (s : Span) : String := s!"{s.start}..{s.stop}"

/-- The largest offset a span can hold. -/
def maxOffset : Nat := 4294967295

/-- Why a range of offsets is no span. -/
inductive RangeError where
  | startTooLarge (offset : Nat)
  | stopTooLarge (offset : Nat)
  deriving DecidableEq, Repr

def RangeError.message : RangeError → String
  | .startTooLarge v => s!"span start {v} exceeds u32::MAX ({maxOffset})"
  | .stopTooLarge v => s!"span end {v} exceeds u32::MAX ({maxOffset})"

/-- Offsets up to `maxOffset` make a span; the start is judged first. -/
def ofRange (start stop : Nat) : Except RangeError Span :=
  if maxOffset < start then .error (.startTooLarge start)
  else if maxOffset < stop then .error (.stopTooLarge stop)
  else .ok ⟨start, stop⟩

/-- The offset, or the largest one if it is larger. -/
def clamp (offset : Nat) : Nat := min offset maxOffset

/-- The span of a range of offsets; what is no span stands for no source text. -/
def between (start stop : Nat) : Span :=
  match ofRange start stop with
  | .ok s => s
  | .error _ => none

theorem clamp_of_le {offset : Nat} (h : offset ≤ maxOffset) : clamp offset = offset := Nat.min_eq_left h

theorem between_of_le {start stop : Nat} (hstart : start ≤ maxOffset) (hstop : stop ≤ maxOffset) :
    between start stop = ⟨start, stop⟩ := by
  rw [between, ofRange, if_neg (Nat.not_lt.mpr hstart), if_neg (Nat.not_lt.mpr hstop)]

/-- A range of offsets is a span or stands for no source text. -/
theorem between_cases (start stop : Nat) : between start stop = ⟨start, stop⟩ ∨ between start stop = none := by
  by_cases hstart : start ≤ maxOffset
  · by_cases hstop : stop ≤ maxOffset
    · exact .inl (between_of_le hstart hstop)
    · rw [between, ofRange, if_neg (Nat.not_lt.mpr hstart), if_pos (Nat.not_le.mp hstop)]
      exact .inr rfl
  · rw [between, ofRange, if_pos (Nat.not_le.mp hstart)]
    exact .inr rfl

end Span

end Treewalk
