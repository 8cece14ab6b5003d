/-
  Treewalk.Interner — a table of distinct texts, each known by its position.

  Texts are never given up, so a name goes on standing for the text it was given for. Several callers may share
  a table: each looks for its text among the names, and a caller that has not found it enters it afterwards,
  when another may have done so in between.
-/

import Treewalk.Table

namespace Treewalk

/-- A text's position in an interner. -/
structure Name where
  index : Nat
  deriving DecidableEq, Repr, Inhabited

namespace Name

/-- The empty text, which every interner holds first. -/
def empty : Name := ⟨0⟩

/-- The largest position a name can hold. -/
def maxIndex : Nat := 4294967295

/-- The name of a position; all that are too large have the last name. -/
def ofIndex (i : Nat) : Name := ⟨min i maxIndex⟩

def debug (n : Name) : String := s!"Name({n.index})"

theorem ofIndex_of_le {i : Nat} (h : i ≤ maxIndex) : ofIndex i = ⟨i⟩ := congrArg mk (Nat.min_eq_left h)

theorem ofIndex_of_ge {i : Nat} (h : maxIndex ≤ i) : ofIndex i = ⟨maxIndex⟩ := congrArg mk (Nat.min_eq_right h)

end Name

structure Interner where
  /-- The names by text. -/
  names : Table Name
  /-- The texts by position. -/
  texts : Array String
  deriving Repr

namespace Interner

/-- The name of a text that was entered before. -/
def find? (t : Interner) (s : String) : Option Name := t.names.get? s

/-- Enters a text at the end unless this was done meanwhile. -/
def enter (t : Interner) (s : String) : Name × Interner :=
  match t.find? s with
  | some n => (n, t)
  | none =>
    let n := Name.ofIndex t.texts.size
    (n, ⟨t.names.put s n, t.texts.push s⟩)

/-- The name of a text, entered if it is new. -/
def intern (t : Interner) (s : String) : Name × Interner :=
  match t.find? s with
  | some n => (n, t)
  | none => t.enter s

/-- Interns texts in turn: each of them with the name it is given, and the table they leave. -/
def internAll (t : Interner) : List String → List (String × Name) × Interner
  | [] => ([], t)
  | s :: rest =>
    let (n, t) := t.intern s
    let (calls, t) := t.internAll rest
    ((s, n) :: calls, t)

/-- The text at a position; a position of another interner reads as the empty text. -/
def lookup (t : Interner) (n : Name) : String := t.texts.getD n.index ""

def size (t : Interner) : Nat := t.texts.size

/-- Whether nothing but the empty text was entered. -/
def isEmpty (t : Interner) : Bool := t.size ≤ 1

/-- The texts every interner starts with. -/
def wellKnown : List String :=
  ["", "this", "console", "log", "info", "warn", "error", "length", "undefined"]

def new : Interner := (internAll ⟨[], #[]⟩ wellKnown).2

/-! ## What interning a text does -/

section
variable {t : Interner} {s : String} {n : Name}

theorem intern_of_find? (h : t.find? s = some n) : t.intern s = (n, t) := by rw [intern, h]

theorem intern_of_find?_none (h : t.find? s = none) :
    t.intern s = (Name.ofIndex t.size, ⟨t.names.put s (Name.ofIndex t.size), t.texts.push s⟩) := by
  rw [intern, h]
  simp only [enter, h]
  rfl

theorem getElem?_intern_of_none (h : t.find? s = none) (i : Nat) :
    (t.intern s).2.texts[i]? = if i = t.size then some s else t.texts[i]? := by
  rw [intern_of_find?_none h]
  exact Array.getElem?_push

/-- To enter a text is to intern it, whatever was found before. -/
theorem enter_eq_intern (t : Interner) (s : String) : t.enter s = t.intern s := by
  rw [intern]
  cases h : t.find? s with
  | some n => simp only [enter, h]
  | none => rfl

/-- Interning a text gives it a name, and no other. -/
theorem find?_intern (t : Interner) (s r : String) :
    (t.intern s).2.find? r = if s = r then some (t.intern s).1 else t.find? r := by
  cases h : t.find? s with
  | some n =>
    rw [intern_of_find? h]
    split
    · rename_i hr
      rw [← hr, h]
    · rfl
  | none =>
    rw [intern_of_find?_none h]
    exact Table.get?_put ..

theorem lookup_of_getElem? (h : t.texts[n.index]? = some s) : t.lookup n = s := by
  rw [lookup, Array.getD_eq_getD_getElem?, h, Option.getD_some]

end

@[simp] theorem internAll_nil (t : Interner) : t.internAll [] = ([], t) := rfl

@[simp] theorem internAll_cons (t : Interner) (s : String) (rest : List String) : t.internAll (s :: rest) =
    ((s, (t.intern s).1) :: ((t.intern s).2.internAll rest).1, ((t.intern s).2.internAll rest).2) := rfl

theorem internAll_append (t : Interner) (calls later : List String) : t.internAll (calls ++ later) =
    ((t.internAll calls).1 ++ ((t.internAll calls).2.internAll later).1, ((t.internAll calls).2.internAll later).2) := by
  induction calls generalizing t with
  | nil => rfl
  | cons s calls ih => simp only [List.cons_append, internAll_cons, ih]

theorem internAll_concat (t : Interner) (calls : List String) (s : String) : t.internAll (calls ++ [s]) =
    ((t.internAll calls).1 ++ [(s, ((t.internAll calls).2.intern s).1)], ((t.internAll calls).2.intern s).2) :=
  internAll_append t calls [s]

end Interner

end Treewalk
