/-
  Treewalk.Eval.Store — what an evaluation changes: the scopes, the number of running calls and the
  console's text. Whatever it does to them is a `Change`, one after another. An action may fail, and
  the changes it made before that stay.
-/

import Treewalk.Scope
import Treewalk.Eval.Host

namespace Treewalk

structure Store where
  scopes : Scopes
  /-- How many calls of closures are running. -/
  depth : Nat
  out : String
  err : String

inductive Change where
  /-- A declaration binds a name in a scope. -/
  | bind (scope : ScopeId) (name : String) (value : Value)
  /-- A call of a closure begins. -/
  | enter (c : Closure) (this : Value) (args : List Value)
  /-- The latest call ends. -/
  | leave
  | print (lines : List Line)

/-- Parameters bound to arguments by position, missing ones to `undefined`. -/
def bindParams : List Param → List Value → Table Value → Table Value
  | [], _, t => t
  | p :: ps, args, t => bindParams ps args.tail (t.put p.name (args.headD .undefined))

/-- Binds parameters and then the receiver, on top of what was bound. -/
def Closure.bindLocals (c : Closure) (this : Value) (args : List Value) (t : Table Value) : Table Value :=
  (bindParams c.params args t).put "this" this

/-- What a call binds in its scope. -/
def Closure.locals (c : Closure) (this : Value) (args : List Value) : Table Value := c.bindLocals this args []

theorem get?_bindParams (ps : List Param) (args : List Value) (t : Table Value) (name : String) :
    (bindParams ps args t).get? name = ((bindParams ps args []).get? name).or (t.get? name) := by
  induction ps generalizing args t with
  | nil => rfl
  | cons p ps ih =>
    rw [bindParams, bindParams, ih, ih args.tail (Table.put [] _ _), Table.get?_put, Table.get?_put]
    cases (bindParams ps args.tail []).get? name with
    | some v => rfl
    | none => split <;> rfl

theorem Closure.get?_bindLocals (c : Closure) (this : Value) (args : List Value) (name : String) (t : Table Value) :
    (c.bindLocals this args t).get? name = ((c.locals this args).get? name).or (t.get? name) := by
  rw [locals, bindLocals, bindLocals, Table.get?_put, Table.get?_put, get?_bindParams]
  split <;> rfl

namespace Store

def new : Store := ⟨Scopes.new, 0, "", ""⟩

/-- Writes a line to its stream. -/
def print (s : Store) (line : Line) : Store :=
  match line.stream with
  | .out => { s with out := s.out ++ line.text ++ "\n" }
  | .err => { s with err := s.err ++ line.text ++ "\n" }

/-- A call runs in a new scope inside the one that its closure captured. -/
def apply (s : Store) : Change → Store
  | .bind scope name value => { s with scopes := s.scopes.set scope name value }
  | .enter c this args =>
    let (scope, scopes) := s.scopes.push c.scope
    { s with scopes := scopes.update scope (c.bindLocals this args), depth := s.depth + 1 }
  | .leave => { s with depth := s.depth - 1 }
  | .print lines => lines.foldl print s

/-- What a list of changes makes of a store. -/
def applyAll (s : Store) (changes : List Change) : Store := changes.foldl apply s

/-! ## What the beginning of a call does -/

section
variable (s : Store) (c : Closure) (this : Value) (args : List Value)

@[simp] theorem size_enter : (s.apply (.enter c this args)).scopes.size = s.scopes.size + 1 := by simp [apply]

@[simp] theorem depth_enter : (s.apply (.enter c this args)).depth = s.depth + 1 := rfl

@[simp] theorem latest_enter : (s.apply (.enter c this args)).scopes.latest = .ofIndex s.scopes.size := by
  simp [Scopes.latest]

theorem parent_enter (i : ScopeId) : (s.apply (.enter c this args)).scopes.parent i =
    if i.index = s.scopes.size then some c.scope else s.scopes.parent i := by
  simp only [apply, Scopes.parent_update, Scopes.parent_push]

/-- The scope of the call binds the receiver and the arguments, and what it bound before if it is no new one. -/
theorem getLocal_enter (i : ScopeId) (name : String) : (s.apply (.enter c this args)).scopes.getLocal i name =
    if .ofIndex s.scopes.size = i then ((c.locals this args).get? name).or (s.scopes.getLocal i name)
    else s.scopes.getLocal i name := by
  have hlt : (ScopeId.ofIndex s.scopes.size).index < (s.scopes.push c.scope).2.size := by
    rw [Scopes.size_push]
    exact Nat.lt_succ_of_le (ScopeId.index_ofIndex_le _)
  show ((s.scopes.push c.scope).2.update _ _).getLocal i name = _
  rw [Scopes.getLocal_update _ _ _ _ _ (c.get?_bindLocals this args name) hlt, Scopes.getLocal_push]

/-- The other scopes stay as they are. -/
theorem frame_enter {i : ScopeId} (hi : i.index < s.scopes.size) (hne : .ofIndex s.scopes.size ≠ i) :
    (s.apply (.enter c this args)).scopes.frames[i.index]? = s.scopes.frames[i.index]? := by
  show ((s.scopes.push c.scope).2.update _ _).frames[i.index]? = _
  rw [Scopes.frame_update, if_neg hne, Scopes.frame_push, if_neg (Nat.ne_of_lt hi)]

end

/-! ## What changes leave alone -/

theorem apply_print_cons (s : Store) (line : Line) (lines : List Line) :
    s.apply (.print (line :: lines)) = (s.print line).apply (.print lines) := rfl

@[simp] theorem print_scopes (s : Store) (line : Line) : (s.print line).scopes = s.scopes := by
  unfold print
  split <;> rfl

@[simp] theorem print_depth (s : Store) (line : Line) : (s.print line).depth = s.depth := by
  unfold print
  split <;> rfl

@[simp] theorem apply_print_scopes (s : Store) (lines : List Line) : (s.apply (.print lines)).scopes = s.scopes := by
  induction lines generalizing s with
  | nil => rfl
  | cons line lines ih => rw [apply_print_cons, ih, print_scopes]

@[simp] theorem apply_print_depth (s : Store) (lines : List Line) : (s.apply (.print lines)).depth = s.depth := by
  induction lines generalizing s with
  | nil => rfl
  | cons line lines ih => rw [apply_print_cons, ih, print_depth]

/-- No change gives up a scope. -/
theorem size_le_apply (s : Store) (c : Change) : s.scopes.size ≤ (s.apply c).scopes.size := by
  cases c with
  | bind scope name value => simp [apply]
  | enter c this args => simp [apply]
  | leave => exact Nat.le_refl _
  | print lines => simp

end Store

/-- Where evaluation takes place: a store, with whatever else is to be kept of its changes. -/
class World (ω : Type) where
  store : ω → Store
  apply : ω → Change → ω
  store_apply : ∀ w c, store (apply w c) = (store w).apply c

instance : World Store where
  store s := s
  apply := Store.apply
  store_apply _ _ := rfl

theorem World.size_le_apply {ω : Type} [World ω] (w : ω) (c : Change) :
    (store w).scopes.size ≤ (store (apply w c)).scopes.size := by
  rw [store_apply]
  exact Store.size_le_apply _ _

/-- A step of evaluation. -/
abbrev Action (ω : Type) := EStateM EvalError ω

namespace Action

variable {ω α : Type}

def fail (cause : Cause) : Action ω α := throw (EvalError.of cause)

def ofExcept : Except Cause α → Action ω α
  | .ok a => pure a
  | .error cause => fail cause

/-- Changes the error an action fails with. -/
def mapError (f : EvalError → EvalError) (a : Action ω α) : Action ω α := fun w =>
  match a w with
  | .ok v w => .ok v w
  | .error e w => .error (f e) w

/-- Errors that belong to no node yet belong to the one with this span. -/
def located (span : Span) (a : Action ω α) : Action ω α := a.mapError (·.orSpan span)

/-- The world an action leaves, however it ends. -/
def after (a : Action ω α) (w : ω) : ω :=
  match a w with
  | .ok _ w' => w'
  | .error _ w' => w'

/-! ## How actions run -/

section
variable {β : Type} {a : Action ω α} {f : α → Action ω β} {w w' : ω} {v : α} {e : EvalError}

theorem bind_ok (h : a w = .ok v w') : (a >>= f) w = f v w' := by
  show EStateM.bind a f w = _
  simp only [EStateM.bind, h]

theorem bind_error (h : a w = .error e w') : (a >>= f) w = .error e w' := by
  show EStateM.bind a f w = _
  simp only [EStateM.bind, h]

theorem located_ok (span : Span) (h : a w = .ok v w') : a.located span w = .ok v w' := by
  simp only [located, mapError, h]

theorem located_error (span : Span) (h : a w = .error e w') : a.located span w = .error (e.orSpan span) w' := by
  simp only [located, mapError, h]

end

/-! ## Changes -/

variable [World ω]

def change (c : Change) : Action ω Unit := modify (World.apply · c)

/-- The value a name has in a scope. -/
def lookup (scope : ScopeId) (name : String) : Action ω Value := do
  return (World.store (← get)).scopes.get scope name

/-- Binds a name in a scope. -/
def declare (scope : ScopeId) (name : String) (value : Value) : Action ω Unit :=
  change (.bind scope name value)

/-- Begins a call and gives its scope. -/
def enter (c : Closure) (this : Value) (args : List Value) : Action ω ScopeId := do
  change (.enter c this args)
  return (World.store (← get)).scopes.latest

/-- Ends the latest call after an action, however that ends. -/
def leaving (a : Action ω α) : Action ω α := fun w =>
  match a w with
  | .ok v w => .ok v (World.apply w .leave)
  | .error e w => .error e (World.apply w .leave)

theorem leaving_ok {a : Action ω α} {w w' : ω} {v : α} (h : a w = .ok v w') :
    a.leaving w = .ok v (World.apply w' .leave) := by
  simp only [leaving, h]

theorem leaving_error {a : Action ω α} {w w' : ω} {e : EvalError} (h : a w = .error e w') :
    a.leaving w = .error e (World.apply w' .leave) := by
  simp only [leaving, h]

/-- Prints console lines. -/
def print (lines : List Line) : Action ω Unit := change (.print lines)

end Action

end Treewalk
