/-
  Treewalk.Stack — room for deep recursion.

  Parsing and evaluation recurse as deep as their input nests. `Stack.fresh` runs a computation on
  a thread of its own, with a stack of its own, so that nesting is bounded by memory alone. Its
  value is the computation's value.
-/

namespace Treewalk.Stack

/-- Levels of nesting that share one stack. -/
def levels : Nat := 256

/-- Runs `f` on a fresh stack. -/
def fresh {α : Type} (f : Unit → α) : α := (Task.spawn f Task.Priority.dedicated).get

/-- Runs `f`, on a fresh stack at every `levels`-th level. -/
def atLevel {α : Type} (level : Nat) (f : Unit → α) : α := if level % levels = 0 then fresh f else f ()

@[simp] theorem fresh_eq {α : Type} (f : Unit → α) : fresh f = f () := rfl

@[simp] theorem atLevel_eq {α : Type} (level : Nat) (f : Unit → α) : atLevel level f = f () := by
  simp [atLevel]

end Treewalk.Stack
