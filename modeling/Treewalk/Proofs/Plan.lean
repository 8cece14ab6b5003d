/-
  Treewalk.Proofs.Plan — what the evaluation of a node does by itself, and what it asks for.

  A `Plan` is one round of evaluation written out: it reads scopes, declares and prints, and where it
  needs the value of another node or the result of a call, it asks for that and goes on with the
  answer. `rule` is the plan of each kind of node. It does not recur: how requests are answered is
  left to whoever performs the plan.

  Proved: performing the plan of a node, with requests answered by the evaluator, is evaluating the
  node (`perform_rule`), and the nodes asked for are smaller (`rule_within`). What holds of evaluation
  is then shown request by request, and not once more for each kind of node.
-/

import Treewalk.Eval
import Treewalk.Proofs.Printing

namespace Treewalk

/-- Errors that belong to no node yet belong to the given place, if there is one. -/
def EvalError.placed (e : EvalError) : Option Span → EvalError
  | none => e
  | some span => e.orSpan span

inductive Plan (α : Type) where
  | done (a : α)
  | fail (e : EvalError)
  | look (next : Scopes → Plan α)
  | declare (scope : ScopeId) (name : String) (value : Value) (next : Plan α)
  | print (lines : List Line) (next : Plan α)
  /-- Asks for the evaluation of a node; its errors get `place`. -/
  | node (place : Option Span) (n : Node) (scope : ScopeId) (next : Flow → Plan α)
  /-- Asks for a call of a closure; its errors get `place`. -/
  | call (place : Option Span) (c : Closure) (this : Value) (args : List Value) (next : Value → Plan α)

namespace Plan

variable {α β : Type}

protected def bind : Plan α → (α → Plan β) → Plan β
  | .done a, f => f a
  | .fail e, _ => .fail e
  | .look next, f => .look fun s => (next s).bind f
  | .declare scope name value next, f => .declare scope name value (next.bind f)
  | .print lines next, f => .print lines (next.bind f)
  | .node place n scope next, f => .node place n scope fun flow => (next flow).bind f
  | .call place c this args next, f => .call place c this args fun v => (next v).bind f

instance : Monad Plan where
  pure := .done
  bind := Plan.bind

/-- Errors that belong to no node yet belong to the one with this span. -/
def located (span : Span) : Plan α → Plan α
  | .done a => .done a
  | .fail e => .fail (e.orSpan span)
  | .look next => .look fun s => (next s).located span
  | .declare scope name value next => .declare scope name value (next.located span)
  | .print lines next => .print lines (next.located span)
  | .node place n scope next => .node (some (place.getD span)) n scope fun flow => (next flow).located span
  | .call place c this args next => .call (some (place.getD span)) c this args fun v => (next v).located span

/-! ## The rules of evaluation -/

def ofExcept : Except Cause α → Plan α
  | .ok a => .done a
  | .error cause => .fail (EvalError.of cause)

def eval (n : Node) (scope : ScopeId) : Plan Flow := .node none n scope .done

def lookup (scope : ScopeId) (name : String) : Plan Value := .look fun s => .done (s.get scope name)

def bindName (scope : ScopeId) (name : String) (value : Value) : Plan Unit := .declare scope name value (.done ())

def operand (n : Node) (scope : ScopeId) : Plan Value :=
  match n.name? with
  | some name => lookup scope name
  | none => return (← eval n scope).value

def nameOf (n : Node) (scope : ScopeId) : Plan String :=
  match n.name? with
  | some name => pure name
  | none => return (← eval n scope).value.text

/-- Nodes evaluated in turn, however they complete. -/
def each : List Node → ScopeId → Plan Unit
  | [], _ => return ()
  | n :: ns, scope => do
    let _ ← eval n scope
    each ns scope

/-- The statements of a block up to a `return`. -/
def block : List Node → Value → ScopeId → Plan Flow
  | [], last, _ => return .normal last
  | n :: ns, _, scope => do
    match ← eval n scope with
    | .normal v => block ns v scope
    | .returned v => return .returned v

def list : List Node → ScopeId → Plan (List Value)
  | [], _ => return []
  | n :: ns, scope => do
    let flow ← eval n scope
    let vs ← list ns scope
    return flow.value :: vs

def arguments : List Node → ScopeId → Plan (List Value)
  | [], _ => return []
  | n :: ns, scope => do
    let v ← operand n scope
    let vs ← arguments ns scope
    return v :: vs

variable (m : Machine)

def checkNew (scope : ScopeId) (name : String) : Plan Unit :=
  .look fun s =>
    if m.options.redeclaration.takes s scope name then .fail (EvalError.of (.duplicateDeclaration name)) else .done ()

def callHost (name : String) (this : Value) (args : List Value) : Plan Value :=
  .print (if m.silent then [] else (m.host.call name m.options.color this args).lines)
    (match (m.host.call name m.options.color this args).result with
    | .ok v => .done v
    | .error e => .fail e)

/-- The plan of a call of a value. -/
def callValue (f this : Value) (args : List Value) : Plan Value :=
  match f with
  | .function c => .call none c this args .done
  | .native name => callHost m name this args
  | v => .fail (EvalError.of (.notCallable v.typeName))

def callCallee (callee : Node) (f this : Value) (args : List Value) : Plan Value :=
  if f.isCallable then callValue m f this args
  else .fail ((EvalError.of (.notCallable (Eval.describeCallee callee))).withSpan callee.span)

/-- The plan of a node. -/
def rule : Node → ScopeId → Plan Flow
  | .program span body, scope => located span do
    each body scope
    return .normal .undefined
  | .variables span _ declarators, scope => located span do
    each declarators scope
    return .normal .undefined
  | .declarator span id none, scope => located span do
    let name ← nameOf id scope
    checkNew m scope name
    bindName scope name .undefined
    return .normal .undefined
  | .declarator span id (some init), scope => located span do
    let name ← nameOf id scope
    checkNew m scope name
    let flow ← eval init scope
    bindName scope name flow.value
    return .normal .undefined
  | .function span id params body, scope => located span do
    let name ← nameOf id scope
    checkNew m scope name
    bindName scope name (.function ⟨span, id, params, body, scope⟩)
    return .normal .undefined
  | .returning _ none, _ => return .returned .undefined
  | .returning span (some argument), scope => located span do
    return .returned (← eval argument scope).value
  | .block span body, scope => located span (block body .undefined scope)
  | .expression span e, scope => located span do
    return .normal (← eval e scope).value
  | .empty _, _ => return .normal .undefined
  | .binary span op left right, scope => located span do
    let a ← operand left scope
    let b ← operand right scope
    return .normal (← ofExcept (op.apply a b))
  | .ident _ name, _ => return .normal (.string name)
  | .number _ x, _ => return .normal (.number x)
  | .string _ s, _ => return .normal (.string s)
  | .bool _ b, _ => return .normal (.bool b)
  | .null _, _ => return .normal .null
  | .this _, scope => return .normal (← lookup scope "this")
  | .array span elements, scope => located span do
    return .normal (.array (← list elements scope))
  | .member span object property _, scope => located span do
    let name ← nameOf object scope
    let base ← lookup scope name
    let key ← eval property scope
    return .normal (← ofExcept (base.property key.value.text))
  | .call span (.member memberSpan object property computed) args, scope => located span do
    let args ← arguments args scope
    let name ← nameOf object scope
    let base ← lookup scope name
    let key ← eval property scope
    let f ← located memberSpan (ofExcept (base.property key.value.text))
    return .normal (← callCallee m (.member memberSpan object property computed) f base args)
  | .call span callee args, scope => located span do
    let args ← arguments args scope
    let name ← nameOf callee scope
    let f ← lookup scope name
    return .normal (← callCallee m callee f .null args)
  | .unsupported span kind, _ => located span (.fail (EvalError.of (.unsupportedNode kind)))

/-! ## Performing a plan -/

section
variable {ω : Type}

/-- Only the innermost place counts. -/
theorem mapError_placed (a : Action ω α) (place : Option Span) (span : Span) :
    (a.mapError (·.placed place)).located span = a.mapError (·.placed (some (place.getD span))) := by
  funext w
  cases place <;> cases hw : a w <;> simp [Action.located, Action.mapError, EvalError.placed, EvalError.orSpan, hw]

theorem mapError_placed_none (a : Action ω α) : a.mapError (·.placed none) = a := by
  funext w
  cases hw : a w <;> simp [Action.mapError, EvalError.placed, hw]

theorem located_bind (a : Action ω α) (f : α → Action ω β) (span : Span) :
    (a >>= f).located span = a.located span >>= fun v => (f v).located span := by
  funext w
  cases hw : a w with
  | error e w' => rw [Action.located_error span (Action.bind_error hw), Action.bind_error (Action.located_error span hw)]
  | ok v w' =>
    rw [Action.bind_ok (Action.located_ok span hw)]
    simp only [Action.located, Action.mapError, Action.bind_ok hw]

end

variable {ω : Type} [World ω] (inv : Invoke ω)

/-- Performs a plan; nodes are evaluated and calls made by the evaluator. -/
def perform : Plan α → Action ω α
  | .done a => pure a
  | .fail e => throw e
  | .look next => fun w => perform (next (World.store w).scopes) w
  | .declare scope name value next => fun w => perform next (World.apply w (.bind scope name value))
  | .print lines next => fun w => perform next (World.apply w (.print lines))
  | .node place n scope next => do
    perform (next (← (Eval.eval m inv n scope).mapError (·.placed place)))
  | .call place c this args next => do
    perform (next (← (inv c this args).mapError (·.placed place)))

@[simp] theorem perform_bind (p : Plan α) (f : α → Plan β) :
    perform m inv (p >>= f) = perform m inv p >>= fun a => perform m inv (f a) := by
  show perform m inv (p.bind f) = _
  induction p with
  | done a => rfl
  | fail e => rfl
  | look next ih =>
    funext w
    exact congrFun (ih _) w
  | declare scope name value next ih =>
    funext w
    exact congrFun ih _
  | print lines next ih =>
    funext w
    exact congrFun ih _
  | node place n scope next ih =>
    simp only [Plan.bind, perform, ih, bind_assoc]
  | call place c this args next ih =>
    simp only [Plan.bind, perform, ih, bind_assoc]

@[simp] theorem perform_located (span : Span) (p : Plan α) :
    perform m inv (p.located span) = (perform m inv p).located span := by
  induction p with
  | done a => rfl
  | fail e => rfl
  | look next ih =>
    funext w
    exact congrFun (ih _) w
  | declare scope name value next ih =>
    funext w
    exact congrFun ih _
  | print lines next ih =>
    funext w
    exact congrFun ih _
  | node place n scope next ih => simp only [located, perform, ih, located_bind, mapError_placed]
  | call place c this args next ih => simp only [located, perform, ih, located_bind, mapError_placed]

section
variable {m inv} {place : Option Span} {w w' : ω} {e : EvalError}

theorem perform_node_ok {n : Node} {scope : ScopeId} {next : Flow → Plan α} {flow : Flow}
    (h : Eval.eval m inv n scope w = .ok flow w') :
    perform m inv (.node place n scope next) w = perform m inv (next flow) w' :=
  Action.bind_ok (by simp only [Action.mapError, h])

theorem perform_node_error {n : Node} {scope : ScopeId} {next : Flow → Plan α}
    (h : Eval.eval m inv n scope w = .error e w') :
    perform m inv (.node place n scope next) w = .error (e.placed place) w' :=
  Action.bind_error (by simp only [Action.mapError, h])

theorem perform_call_ok {c : Closure} {this v : Value} {args : List Value} {next : Value → Plan α}
    (h : inv c this args w = .ok v w') :
    perform m inv (.call place c this args next) w = perform m inv (next v) w' :=
  Action.bind_ok (by simp only [Action.mapError, h])

theorem perform_call_error {c : Closure} {this : Value} {args : List Value} {next : Value → Plan α}
    (h : inv c this args w = .error e w') :
    perform m inv (.call place c this args next) w = .error (e.placed place) w' :=
  Action.bind_error (by simp only [Action.mapError, h])

end

/-! ## The plan of a node is its evaluation -/

@[simp] theorem perform_pure (a : α) : perform m inv (pure a) = pure a := rfl

@[simp] theorem perform_eval (n : Node) (scope : ScopeId) : perform m inv (eval n scope) = Eval.eval m inv n scope := by
  simp only [eval, perform, mapError_placed_none, bind_pure]

@[simp] theorem perform_ofExcept (r : Except Cause α) : perform m inv (ofExcept r) = Action.ofExcept r := by
  cases r <;> rfl

@[simp] theorem perform_lookup (scope : ScopeId) (name : String) :
    perform m inv (lookup scope name) = Action.lookup scope name := rfl

@[simp] theorem perform_bindName (scope : ScopeId) (name : String) (value : Value) :
    perform m inv (bindName scope name value) = Action.declare scope name value := rfl

@[simp] theorem perform_operand (n : Node) (scope : ScopeId) :
    perform m inv (operand n scope) = Eval.operand n scope (Eval.eval m inv n scope) := by
  unfold operand Eval.operand
  cases n.name? <;> simp

@[simp] theorem perform_nameOf (n : Node) (scope : ScopeId) :
    perform m inv (nameOf n scope) = Eval.nameOf n (Eval.eval m inv n scope) := by
  unfold nameOf Eval.nameOf
  cases n.name? <;> simp

@[simp] theorem perform_checkNew (scope : ScopeId) (name : String) :
    perform m inv (checkNew m scope name) = Eval.checkNew m scope name := by
  funext w
  cases ht : m.options.redeclaration.takes (World.store w).scopes scope name with
  | true =>
    rw [Eval.checkNew_taken m ht]
    simp only [checkNew, perform, ht, if_true]
    rfl
  | false =>
    rw [Eval.checkNew_free m ht]
    simp only [checkNew, perform, ht, Bool.false_eq_true, if_false]
    rfl

@[simp] theorem perform_each (ns : List Node) (scope : ScopeId) :
    perform m inv (each ns scope) = Eval.evalEach m inv ns scope := by
  induction ns with
  | nil => rfl
  | cons n ns ih => simp [each, Eval.evalEach, ih]

@[simp] theorem perform_block (ns : List Node) (last : Value) (scope : ScopeId) :
    perform m inv (block ns last scope) = Eval.evalBlock m inv ns last scope := by
  induction ns generalizing last with
  | nil => rfl
  | cons n ns ih =>
    simp only [block, Eval.evalBlock, perform_bind, perform_eval]
    -- How the statement completes decides whether there are more requests.
    refine congrArg _ (funext fun flow => ?_)
    cases flow with
    | normal v => exact ih v
    | returned v => rfl

@[simp] theorem perform_list (ns : List Node) (scope : ScopeId) :
    perform m inv (list ns scope) = Eval.evalList m inv ns scope := by
  induction ns with
  | nil => rfl
  | cons n ns ih => simp [list, Eval.evalList, ih]

@[simp] theorem perform_arguments (ns : List Node) (scope : ScopeId) :
    perform m inv (arguments ns scope) = Eval.evalArguments m inv ns scope := by
  induction ns with
  | nil => rfl
  | cons n ns ih => simp [arguments, Eval.evalArguments, ih]

@[simp] theorem perform_callValue (f this : Value) (args : List Value) :
    perform m inv (callValue m f this args) = Eval.callValue m inv f this args := by
  cases f with
  | function c => simp only [callValue, Eval.callValue, perform, mapError_placed_none, bind_pure]
  | native name =>
    funext w
    simp only [callValue, Eval.callValue, callHost, Eval.callHost, perform]
    cases (m.host.call name m.options.color this args).result <;> rfl
  | _ => rfl

@[simp] theorem perform_callCallee (callee : Node) (f this : Value) (args : List Value) :
    perform m inv (callCallee m callee f this args) = Eval.callCallee m inv callee f this args := by
  unfold callCallee Eval.callCallee
  split
  · exact perform_callValue m inv f this args
  · rfl

theorem perform_rule (n : Node) (scope : ScopeId) : perform m inv (rule m n scope) = Eval.eval m inv n scope := by
  cases n with
  | declarator span id init => cases init <;> simp [rule, Eval.eval]
  | returning span argument => cases argument <;> simp [rule, Eval.eval]
  | call span callee args => cases callee <;> simp [rule, Eval.eval]
  | unsupported span kind => rfl
  | _ => simp [rule, Eval.eval]

end Plan

/-! ## The nodes asked for -/

/-- How many nodes a tree has. -/
def Node.size (n : Node) : Nat := n.nodes.length

theorem Node.size_lt_of_mem {n d : Node} (h : d ∈ n.children) : d.size < n.size := by
  have hsub : d.nodes.length ≤ (n.children.flatMap nodes).length :=
    (List.sublist_flatten_of_mem (List.mem_map_of_mem h)).length_le
  unfold size
  rw [nodes_eq n, List.length_cons]
  omega

namespace Plan

variable {α β : Type}

/-- All nodes asked for, whatever is answered, have less than `k` nodes. -/
def Within (k : Nat) : Plan α → Prop
  | .done _ | .fail _ => True
  | .look next => ∀ s, (next s).Within k
  | .declare _ _ _ next | .print _ next => next.Within k
  | .node _ n _ next => n.size < k ∧ ∀ flow, (next flow).Within k
  | .call _ _ _ _ next => ∀ v, (next v).Within k

variable {k : Nat}

theorem Within.bind {p : Plan α} {f : α → Plan β} (hp : p.Within k) (hf : ∀ a, (f a).Within k) :
    (p >>= f).Within k := by
  show (p.bind f).Within k
  induction p with
  | done a => exact hf a
  | fail e => trivial
  | look next ih => exact fun s => ih s (hp s)
  | declare scope name value next ih => exact ih hp
  | print lines next ih => exact ih hp
  | node place n scope next ih => exact ⟨hp.1, fun flow => ih flow (hp.2 flow)⟩
  | call place c this args next ih => exact fun v => ih v (hp v)

theorem Within.located {p : Plan α} (hp : p.Within k) (span : Span) : (p.located span).Within k := by
  induction p with
  | done a => trivial
  | fail e => trivial
  | look next ih => exact fun s => ih s (hp s)
  | declare scope name value next ih => exact ih hp
  | print lines next ih => exact ih hp
  | node place n scope next ih => exact ⟨hp.1, fun flow => ih flow (hp.2 flow)⟩
  | call place c this args next ih => exact fun v => ih v (hp v)

theorem within_pure (a : α) : (pure a : Plan α).Within k := trivial

theorem within_ofExcept (r : Except Cause α) : (ofExcept r).Within k := by
  cases r <;> trivial

theorem within_eval {n : Node} (h : n.size < k) (scope : ScopeId) : (eval n scope).Within k := ⟨h, fun _ => trivial⟩

theorem within_lookup (scope : ScopeId) (name : String) : (lookup scope name).Within k := fun _ => trivial

theorem within_bindName (scope : ScopeId) (name : String) (value : Value) : (bindName scope name value).Within k :=
  trivial

theorem within_operand {n : Node} (h : n.size < k) (scope : ScopeId) : (operand n scope).Within k := by
  unfold operand
  split
  · exact within_lookup scope _
  · exact (within_eval h scope).bind fun _ => within_pure _

theorem within_nameOf {n : Node} (h : n.size < k) (scope : ScopeId) : (nameOf n scope).Within k := by
  unfold nameOf
  split
  · exact within_pure _
  · exact (within_eval h scope).bind fun _ => within_pure _

theorem within_each {ns : List Node} (h : ∀ n ∈ ns, n.size < k) (scope : ScopeId) : (each ns scope).Within k := by
  induction ns with
  | nil => exact within_pure ()
  | cons n ns ih =>
    obtain ⟨hn, hns⟩ := List.forall_mem_cons.mp h
    exact (within_eval hn scope).bind fun _ => ih hns

theorem within_block {ns : List Node} (h : ∀ n ∈ ns, n.size < k) (last : Value) (scope : ScopeId) :
    (block ns last scope).Within k := by
  induction ns generalizing last with
  | nil => exact within_pure _
  | cons n ns ih =>
    obtain ⟨hn, hns⟩ := List.forall_mem_cons.mp h
    refine (within_eval hn scope).bind fun flow => ?_
    cases flow with
    | normal v => exact ih hns v
    | returned v => exact within_pure _

theorem within_list {ns : List Node} (h : ∀ n ∈ ns, n.size < k) (scope : ScopeId) : (list ns scope).Within k := by
  induction ns with
  | nil => exact within_pure []
  | cons n ns ih =>
    obtain ⟨hn, hns⟩ := List.forall_mem_cons.mp h
    exact (within_eval hn scope).bind fun _ => (ih hns).bind fun _ => within_pure _

theorem within_arguments {ns : List Node} (h : ∀ n ∈ ns, n.size < k) (scope : ScopeId) :
    (arguments ns scope).Within k := by
  induction ns with
  | nil => exact within_pure []
  | cons n ns ih =>
    obtain ⟨hn, hns⟩ := List.forall_mem_cons.mp h
    exact (within_operand hn scope).bind fun _ => (ih hns).bind fun _ => within_pure _

variable (m : Machine)

theorem within_checkNew (scope : ScopeId) (name : String) : (checkNew m scope name).Within k := by
  intro s
  dsimp only
  split <;> trivial

theorem within_callValue (f this : Value) (args : List Value) : (callValue m f this args).Within k := by
  unfold callValue
  split
  · exact fun _ => trivial
  · unfold callHost
    simp only [Within]
    split <;> trivial
  · trivial

theorem within_callCallee (callee : Node) (f this : Value) (args : List Value) :
    (callCallee m callee f this args).Within k := by
  unfold callCallee
  split
  · exact within_callValue m f this args
  · trivial

/-- What follows when a declared name is known. -/
theorem within_declare (scope : ScopeId) (name : String) (value : Value) :
    (do checkNew m scope name; bindName scope name value; return Flow.normal .undefined).Within k :=
  .bind (within_checkNew m scope name) fun _ => .bind (within_bindName scope name value) fun _ => within_pure _

/-- Every kind of node asks for smaller nodes only. -/
theorem rule_within : ∀ (n : Node) (scope : ScopeId), (rule m n scope).Within n.size
  | .program span body, scope | .variables span _ body, scope => by
    rw [rule]
    exact .located (.bind (within_each (fun _ => Node.size_lt_of_mem) scope) fun _ => within_pure _) span
  | .declarator span id none, scope | .function span id params body, scope => by
    rw [rule]
    refine .located (.bind (within_nameOf (Node.size_lt_of_mem List.mem_cons_self) scope) fun name => ?_) span
    exact within_declare m scope name _
  | .declarator span id (some e), scope => by
    have he : e.size < (Node.declarator span id (some e)).size := Node.size_lt_of_mem (by simp [Node.children])
    rw [rule]
    refine .located (.bind (within_nameOf (Node.size_lt_of_mem List.mem_cons_self) scope) fun name => ?_) span
    refine .bind (within_checkNew m scope name) fun _ => .bind (within_eval he scope) fun flow => ?_
    exact .bind (within_bindName scope name _) fun _ => within_pure _
  | .returning span (some e), scope | .expression span e, scope => by
    rw [rule]
    exact .located (.bind (within_eval (Node.size_lt_of_mem List.mem_cons_self) scope) fun _ => within_pure _) span
  | .block span body, scope => by
    rw [rule]
    exact .located (within_block (fun _ => Node.size_lt_of_mem) .undefined scope) span
  | .binary span op l r, scope => by
    have hr : r.size < (Node.binary span op l r).size := Node.size_lt_of_mem (by simp [Node.children])
    rw [rule]
    refine .located (.bind (within_operand (Node.size_lt_of_mem List.mem_cons_self) scope) fun a => ?_) span
    exact .bind (within_operand hr scope) fun b => .bind (within_ofExcept _) fun _ => within_pure _
  | .this span, scope => .bind (within_lookup scope "this") fun _ => within_pure _
  | .array span es, scope => by
    rw [rule]
    exact .located (.bind (within_list (fun _ => Node.size_lt_of_mem) scope) fun _ => within_pure _) span
  | .member span o p computed, scope => by
    have hp : p.size < (Node.member span o p computed).size := Node.size_lt_of_mem (by simp [Node.children])
    rw [rule]
    refine .located (.bind (within_nameOf (Node.size_lt_of_mem List.mem_cons_self) scope) fun name => ?_) span
    refine .bind (within_lookup scope name) fun base => .bind (within_eval hp scope) fun key => ?_
    exact .bind (within_ofExcept _) fun _ => within_pure _
  | .call span callee args, scope => by
    have hbelow := fun d => @Node.size_lt_of_mem (.call span callee args) d
    have hargs := within_arguments (fun a ha => hbelow a (List.mem_cons_of_mem _ ha)) scope
    have hcallee := hbelow callee List.mem_cons_self
    cases callee with
    | member memberSpan o p computed =>
      have ho : o.size < (Node.member memberSpan o p computed).size := Node.size_lt_of_mem List.mem_cons_self
      have hp : p.size < (Node.member memberSpan o p computed).size := Node.size_lt_of_mem (by simp [Node.children])
      rw [rule]
      refine .located (.bind hargs fun as => ?_) span
      refine .bind (within_nameOf (Nat.lt_trans ho hcallee) scope) fun name => ?_
      refine .bind (within_lookup scope name) fun base => ?_
      refine .bind (within_eval (Nat.lt_trans hp hcallee) scope) fun key => ?_
      refine .bind (.located (within_ofExcept _) memberSpan) fun f => ?_
      exact .bind (within_callCallee m _ f base as) fun _ => within_pure _
    | _ =>
      rw [rule]
      · refine .located (.bind hargs fun as => .bind (within_nameOf hcallee scope) fun name => ?_) span
        refine .bind (within_lookup scope name) fun f => ?_
        exact .bind (within_callCallee m _ f .null as) fun _ => within_pure _
      · simp
  | .returning span none, _ | .empty _, _ | .ident _ _, _ | .number _ _, _ | .string _ _, _ | .bool _ _, _
  | .null _, _ | .unsupported _ _, _ => trivial

end Plan

end Treewalk
