/-
  Treewalk.Session — one set of globals that several programs, trees and calls work on in turn.
  A step that fails leaves what it did before that in place.
-/

import Treewalk.Eval

namespace Treewalk

structure Session where
  machine : Machine
  store : Store

namespace Session

/-- Binds a global. -/
def define (s : Session) (name : String) (value : Value) : Session :=
  { s with store := { s.store with scopes := s.store.scopes.set .global name value } }

/-- A session with globals bound in order, the console before all if it is asked for. -/
def new (machine : Machine) (seedConsole : Bool) (globals : Table Value) : Session :=
  let start : Session := ⟨machine, Store.new⟩
  let seeded := if seedConsole then start.define "console" (Console.object 0) else start
  globals.foldl (fun s g => s.define g.1 g.2) seeded

/-- Performs an action on the session's store. -/
def perform {α : Type} (s : Session) (a : Action Store α) : Except EvalError α × Session :=
  match a s.store with
  | .ok v store => (.ok v, { s with store := store })
  | .error e store => (.error e, { s with store := store })

@[simp] theorem perform_store {α : Type} (s : Session) (a : Action Store α) :
    (s.perform a).2.store = a.after s.store := by
  unfold perform Action.after
  cases a s.store <;> rfl

@[simp] theorem perform_machine {α : Type} (s : Session) (a : Action Store α) :
    (s.perform a).2.machine = s.machine := by
  unfold perform
  cases a s.store <;> rfl

/-- Evaluates a node among the globals. -/
def evaluate (s : Session) (n : Node) : Except EvalError Flow × Session :=
  s.perform (s.machine.evaluate n .global)

/-- Calls a value. -/
def call (s : Session) (f this : Value) (args : List Value) : Except EvalError Value × Session :=
  s.perform (s.machine.call f this args)

/-- A global's value, `undefined` if it is unbound. -/
def global (s : Session) (name : String) : Value := s.store.scopes.get .global name

/-- A global's binding. -/
def lookup (s : Session) (name : String) : Option Value := s.store.scopes.lookup .global name

end Session

end Treewalk
