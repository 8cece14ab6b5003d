/-
  Treewalk.Eval — evaluation by walking the tree.

  An identifier evaluates to its *name*. What a construct makes of the nodes below it is its own
  affair: operands and call arguments that are identifiers are looked up (`operand`); declared
  names, objects of member accesses and plain callees are used as names (`nameOf`); initializers,
  `return` arguments and array elements are taken as they evaluate, so `var b = a` binds `"a"`.

  `eval` follows the tree. Calls leave it: `invoke room` runs the body of a closure with room for
  `room` nested calls, so that every evaluation ends. The room is what the calls that are running
  leave of `maxCallDepth`.
-/

import Treewalk.Eval.Operator
import Treewalk.Eval.Store
import Treewalk.Text.Escaped
import Treewalk.Stack

namespace Treewalk

/-- When a declared name counts as taken. -/
inductive Redeclaration where
  /-- Any binding in the scope itself counts. -/
  | presence
  /-- Only a binding to a truthy value counts. -/
  | truthy
  deriving DecidableEq, Repr

/-- Whether a name is taken in a scope. -/
def Redeclaration.takes (r : Redeclaration) (s : Scopes) (scope : ScopeId) (name : String) : Bool :=
  match r with
  | .presence => s.hasLocal scope name
  | .truthy => s.hasTruthy scope name

/-- Whether a name is taken depends on its binding in the scope alone. -/
theorem Redeclaration.takes_congr (r : Redeclaration) {s t : Scopes} {scope : ScopeId} {name : String}
    (h : s.getLocal scope name = t.getLocal scope name) : r.takes s scope name = r.takes t scope name := by
  cases r with
  | presence => simp only [takes, Scopes.hasLocal, h]
  | truthy => simp only [takes, Scopes.hasTruthy, h]

structure EvalOptions where
  /-- How deep calls of declared functions may nest. -/
  maxCallDepth : Nat
  redeclaration : Redeclaration
  /-- Whether console lines are colored. -/
  color : Bool
  deriving DecidableEq, Repr

/-- The nesting of calls allowed unless something else is asked for. -/
def defaultCallDepth : Nat := 10000

def EvalOptions.default : EvalOptions := ⟨defaultCallDepth, .presence, false⟩

/-- What an evaluation goes by and cannot change. -/
structure Machine where
  options : EvalOptions
  host : Host
  /-- Whether console lines are dropped. -/
  silent : Bool

/-- How a node completed. -/
inductive Flow where
  | normal (v : Value)
  /-- A `return` ran: the blocks around it stop. -/
  | returned (v : Value)

namespace Flow

def value : Flow → Value
  | .normal v => v
  | .returned v => v

def isReturn : Flow → Bool
  | .normal _ => false
  | .returned _ => true

/-- What a call yields when its body completes this way. -/
def result : Flow → Value
  | .normal _ => .undefined
  | .returned v => v

end Flow

/-- How the body of a closure is run with a receiver and arguments. -/
abbrev Invoke (ω : Type) := Closure → Value → List Value → Action ω Value

namespace Eval

variable {ω : Type} [World ω]

/-- How error messages call the callee of a call. -/
def describeCallee : Node → String
  | .ident _ name => name
  | .member _ object property false => describeCallee object ++ "." ++ describeCallee property
  | .member _ object property true => describeCallee object ++ "[" ++ describeCallee property ++ "]"
  | .this _ => "this"
  | .string _ s => Text.escaped s
  | .number _ x => Decimal.numberText x
  | _ => "expression"

/-- The value of an operand or argument: an identifier is looked up, anything else is run. -/
def operand (n : Node) (scope : ScopeId) (run : Action ω Flow) : Action ω Value :=
  match n.name? with
  | some name => Action.lookup scope name
  | none => return (← run).value

/-- The name a node stands for: an identifier's own, or the text of what it evaluates to. -/
def nameOf (n : Node) (run : Action ω Flow) : Action ω String :=
  match n.name? with
  | some name => pure name
  | none => return (← run).value.text

variable (m : Machine)

/-- Fails if a name is taken in a scope. -/
def checkNew (scope : ScopeId) (name : String) : Action ω Unit := do
  if m.options.redeclaration.takes (World.store (← get)).scopes scope name then
    Action.fail (.duplicateDeclaration name)

theorem checkNew_taken {scope : ScopeId} {name : String} {w : ω}
    (h : m.options.redeclaration.takes (World.store w).scopes scope name = true) :
    checkNew m scope name w = .error (EvalError.of (.duplicateDeclaration name)) w := by
  show (if _ then Action.fail _ else pure () : Action ω Unit) w = _
  rw [if_pos h]
  rfl

theorem checkNew_free {scope : ScopeId} {name : String} {w : ω}
    (h : m.options.redeclaration.takes (World.store w).scopes scope name = false) :
    checkNew m scope name w = .ok () w := by
  show (if _ then Action.fail _ else pure () : Action ω Unit) w = _
  rw [if_neg (by simp [h])]
  rfl

/-- Calls a function of the host. -/
def callHost (name : String) (this : Value) (args : List Value) : Action ω Value := do
  let reply := m.host.call name m.options.color this args
  Action.print (if m.silent then [] else reply.lines)
  MonadExcept.ofExcept reply.result

/-- Calls a value. -/
def callValue (inv : Invoke ω) (f this : Value) (args : List Value) : Action ω Value :=
  match f with
  | .function c => inv c this args
  | .native name => callHost m name this args
  | v => Action.fail (.notCallable v.typeName)

/-- Calls the value of a callee. -/
def callCallee (inv : Invoke ω) (callee : Node) (f this : Value) (args : List Value) : Action ω Value :=
  if f.isCallable then callValue m inv f this args
  else throw ((EvalError.of (.notCallable (describeCallee callee))).withSpan callee.span)

variable (inv : Invoke ω)

mutual

/-- Evaluates a node in a scope. -/
def eval : Node → ScopeId → Action ω Flow
  | .program span body, scope => Action.located span do
    evalEach body scope
    return .normal .undefined
  | .variables span _ declarators, scope => Action.located span do
    evalEach declarators scope
    return .normal .undefined
  | .declarator span id none, scope => Action.located span do
    let name ← nameOf id (eval id scope)
    checkNew m scope name
    Action.declare scope name .undefined
    return .normal .undefined
  | .declarator span id (some init), scope => Action.located span do
    let name ← nameOf id (eval id scope)
    checkNew m scope name
    let flow ← eval init scope
    Action.declare scope name flow.value
    return .normal .undefined
  | .function span id params body, scope => Action.located span do
    let name ← nameOf id (eval id scope)
    checkNew m scope name
    Action.declare scope name (.function ⟨span, id, params, body, scope⟩)
    return .normal .undefined
  | .returning _ none, _ => return .returned .undefined
  | .returning span (some argument), scope => Action.located span do
    return .returned (← eval argument scope).value
  | .block span body, scope => Action.located span (evalBlock body .undefined scope)
  | .expression span e, scope => Action.located span do
    return .normal (← eval e scope).value
  | .empty _, _ => return .normal .undefined
  | .binary span op left right, scope => Action.located span do
    let a ← operand left scope (eval left scope)
    let b ← operand right scope (eval right scope)
    return .normal (← Action.ofExcept (op.apply a b))
  | .ident _ name, _ => return .normal (.string name)
  | .number _ x, _ => return .normal (.number x)
  | .string _ s, _ => return .normal (.string s)
  | .bool _ b, _ => return .normal (.bool b)
  | .null _, _ => return .normal .null
  | .this _, scope => return .normal (← Action.lookup scope "this")
  | .array span elements, scope => Action.located span do
    return .normal (.array (← evalList elements scope))
  | .member span object property _, scope => Action.located span do
    let name ← nameOf object (eval object scope)
    let base ← Action.lookup scope name
    let key ← eval property scope
    return .normal (← Action.ofExcept (base.property key.value.text))
  | .call span (.member memberSpan object property computed) arguments, scope => Action.located span do
    let args ← evalArguments arguments scope
    let name ← nameOf object (eval object scope)
    let base ← Action.lookup scope name
    let key ← eval property scope
    let f ← Action.located memberSpan (Action.ofExcept (base.property key.value.text))
    return .normal (← callCallee m inv (.member memberSpan object property computed) f base args)
  | .call span callee arguments, scope => Action.located span do
    let args ← evalArguments arguments scope
    let name ← nameOf callee (eval callee scope)
    let f ← Action.lookup scope name
    return .normal (← callCallee m inv callee f .null args)
  | .unsupported span kind, _ => Action.located span (Action.fail (.unsupportedNode kind))

/-- Evaluates nodes in turn, however they complete. -/
def evalEach : List Node → ScopeId → Action ω Unit
  | [], _ => return ()
  | n :: ns, scope => do
    let _ ← eval n scope
    evalEach ns scope

/-- Evaluates the statements of a block up to a `return`; the last one gives the value. -/
def evalBlock : List Node → Value → ScopeId → Action ω Flow
  | [], last, _ => return .normal last
  | n :: ns, _, scope => do
    match ← eval n scope with
    | .normal v => evalBlock ns v scope
    | .returned v => return .returned v

/-- Evaluates the elements of an array. -/
def evalList : List Node → ScopeId → Action ω (List Value)
  | [], _ => return []
  | n :: ns, scope => do
    let flow ← eval n scope
    let vs ← evalList ns scope
    return flow.value :: vs

/-- Evaluates the arguments of a call. -/
def evalArguments : List Node → ScopeId → Action ω (List Value)
  | [], _ => return []
  | n :: ns, scope => do
    let v ← operand n scope (eval n scope)
    let vs ← evalArguments ns scope
    return v :: vs

end

/-- Runs the body of a closure in the scope of a new call, with room for `room` nested calls, this
    one included. -/
def invoke : Nat → Invoke ω
  | 0 => fun _ _ _ => Action.fail (.stackOverflow m.options.maxCallDepth)
  | room + 1 => fun c this args => do
    let scope ← Action.enter c this args
    let flow ← Action.leaving fun w => Stack.atLevel room fun _ => eval m (invoke room) c.body scope w
    return flow.result

/-- A call that there is room for: it begins, the body runs, it ends. -/
theorem invoke_succ (room : Nat) (c : Closure) (this : Value) (args : List Value) (w : ω) :
    invoke m (room + 1) c this args w =
      ((eval m (invoke m room) c.body (World.store (World.apply w (.enter c this args))).scopes.latest).leaving
        >>= fun flow => pure flow.result) (World.apply w (.enter c this args)) := by
  simp only [invoke, Stack.atLevel_eq]
  rfl

end Eval

namespace Machine

variable {ω : Type} [World ω]

/-- The calls that may still begin, one inside the other. -/
def room (m : Machine) (s : Store) : Nat := m.options.maxCallDepth - s.depth

/-- Evaluates a node. -/
def evaluate (m : Machine) (n : Node) (scope : ScopeId) : Action ω Flow := fun w =>
  Eval.eval m (Eval.invoke m (m.room (World.store w))) n scope w

/-- Calls a value. -/
def call (m : Machine) (f this : Value) (args : List Value) : Action ω Value := fun w =>
  Eval.callValue m (Eval.invoke m (m.room (World.store w))) f this args w

end Machine

end Treewalk
