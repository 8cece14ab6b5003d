/-
  Treewalk.Proofs.Blame — an evaluation that fails points at the node at fault.

  An evaluation fails in one place: of the evaluations that are under way, each inside the one before,
  the last fails by itself (`Fails`). Which node is then at fault is said by the node that was
  evaluated and by the cause (`Blames`). Its span is attached before the error is handed on, and an
  error that has a span keeps it, whatever it passes on its way out.

  Proved: where the evaluation of a tree that was read fails, its error carries the span of the node
  at fault, which is a node of that tree (`failure_blamed`).
-/

import Treewalk.Proofs.Nesting
import Treewalk.Proofs.SpanTree
import Treewalk.Proofs.Termination
import Treewalk.Proofs.WellShaped

namespace Treewalk

open Plan

/-! ## Nodes of a tree -/

namespace Node

/-- The node stands somewhere in the tree. -/
def Holds (tree n : Node) : Prop := ∃ path, tree.Located path n

theorem mem_children_of_mem_inScope {n d : Node} (h : d ∈ n.inScope) : d ∈ n.children := by
  cases n with
  | function span id ps body => simp_all [inScope, children]
  | _ => exact h

theorem mem_nodes_child {tree n c : Node} (h : n ∈ tree.nodes) (hc : c ∈ n.children) : c ∈ tree.nodes := by
  rw [nodes_eq] at h ⊢
  rcases List.mem_cons.mp h with rfl | h
  · exact List.mem_cons_of_mem _ (List.mem_flatMap.mpr ⟨c, hc, c.mem_nodes_self⟩)
  · obtain ⟨d, hd, h⟩ := List.mem_flatMap.mp h
    exact List.mem_cons_of_mem _ (List.mem_flatMap.mpr ⟨d, hd, mem_nodes_child h hc⟩)
termination_by tree.size
decreasing_by exact size_lt_of_mem hd

theorem Located.mem_nodes {tree n : Node} {path : List Node} (h : tree.Located path n) : n ∈ tree.nodes := by
  induction h with
  | root => exact tree.mem_nodes_self
  | part _ hd ih => exact mem_nodes_child ih (mem_children_of_mem_inScope hd)
  | body _ ih => exact mem_nodes_child ih (by simp [children])

namespace Holds

variable {tree n d : Node}

theorem root : tree.Holds tree := ⟨[], .root⟩

theorem mem_nodes (h : tree.Holds n) : n ∈ tree.nodes := h.elim fun _ h => h.mem_nodes

theorem child (h : tree.Holds n) (hd : d ∈ n.children) : tree.Holds d := h.elim fun _ h => h.child hd

end Holds

end Node

/-- The function is written in the tree. -/
def WrittenIn (tree : Node) (c : Closure) : Prop := tree.Holds c.declaration

theorem WrittenIn.body {tree : Node} {c : Closure} (h : WrittenIn tree c) : tree.Holds c.body :=
  h.child (by simp [Closure.declaration, Node.children])

/-! ## The node at fault -/

/-- `Blames m n cause b`: where the evaluation of `n` fails by itself for this cause, `b` is at fault. -/
inductive Blames (m : Machine) : Node → Cause → Node → Prop
  | unsupported {span : Span} {kind : String} :
      Blames m (.unsupported span kind) (.unsupportedNode kind) (.unsupported span kind)
  | declarator {span s : Span} {name : String} {init : Option Node} :
      Blames m (.declarator span (.ident s name) init) (.duplicateDeclaration name) (.declarator span (.ident s name) init)
  | function {span s : Span} {name : String} {params : List Param} {body : Node} :
      Blames m (.function span (.ident s name) params body) (.duplicateDeclaration name)
        (.function span (.ident s name) params body)
  | operator {span : Span} {op : BinaryOp} {left right : Node} :
      Blames m (.binary span op left right) (.unsupportedOperator op) (.binary span op left right)
  | callee {span : Span} {callee : Node} {args : List Node} :
      Blames m (.call span callee args) (.notCallable (Eval.describeCallee callee)) callee
  | access {span : Span} {object property : Node} {computed : Bool} {base key : String} :
      Blames m (.member span object property computed) (.invalidPropertyAccess base key) (.member span object property computed)
  /-- The callee's function is read from its object as part of the call. -/
  | calleeAccess {span s : Span} {object property : Node} {computed : Bool} {args : List Node} {base key : String} :
      Blames m (.call span (.member s object property computed) args) (.invalidPropertyAccess base key)
        (.member s object property computed)
  | overflow {span : Span} {callee : Node} {args : List Node} :
      Blames m (.call span callee args) (.stackOverflow m.options.maxCallDepth) (.call span callee args)
  /-- A function of the host failed. -/
  | host {span : Span} {callee : Node} {args : List Node} {message : String} :
      Blames m (.call span callee args) (.custom message) (.call span callee args)

/-- An error of `n` itself that carries the span of the node at fault. -/
def Points (m : Machine) (n : Node) (e : EvalError) : Prop := ∃ b, Blames m n e.cause b ∧ e.span = some b.span

theorem Points.placed {m : Machine} {n : Node} {e : EvalError} (h : Points m n e) (place : Option Span) :
    e.placed place = e := by
  obtain ⟨b, -, hspan⟩ := h
  cases place with
  | none => rfl
  | some span =>
    obtain ⟨cause, s, notes⟩ := e
    cases hspan
    rfl

/-- A host whose functions fail without a place, and for reasons of their own. -/
def Host.Plain (h : Host) : Prop :=
  ∀ name tinted this args e, (h.call name tinted this args).result = .error e → e.span = none ∧ ∃ message, e.cause = .custom message

theorem Console.host_plain : Console.host.Plain := by
  intro name tinted this args e h
  simp only [Console.host] at h
  split at h <;> simp only [Console.print, reduceCtorEq] at h

/-! ## What a plan asks for and how it fails -/

namespace Plan

variable {α β : Type}

/-- The plan asks for nodes of the tree and calls functions written in it, whatever is answered; by
    itself it fails only with errors in `E`, and what it gives is in `Q`. -/
def Abides (m : Machine) (tree : Node) (E : EvalError → Prop) (Q : α → Prop) : Plan α → Prop
  | .done a => Q a
  | .fail e => E e
  | .look next => ∀ s : Scopes, (∀ scope name, (s.get scope name).Only (WrittenIn tree)) → (next s).Abides m tree E Q
  | .declare _ _ v next => v.Only (WrittenIn tree) ∧ next.Abides m tree E Q
  | .print _ next => next.Abides m tree E Q
  | .node _ n _ next => tree.Holds n ∧ ∀ flow : Flow, flow.value.Only (WrittenIn tree) → (next flow).Abides m tree E Q
  | .call place c this args next =>
    (WrittenIn tree c ∧ this.Only (WrittenIn tree) ∧ ∀ a ∈ args, a.Only (WrittenIn tree)) ∧
      E ((EvalError.of (.stackOverflow m.options.maxCallDepth)).placed place) ∧
      ∀ v : Value, v.Only (WrittenIn tree) → (next v).Abides m tree E Q

variable {m : Machine} {tree : Node} {E : EvalError → Prop}

theorem Abides.bind {p : Plan α} {f : α → Plan β} {Q : α → Prop} {R : β → Prop} (hp : p.Abides m tree E Q)
    (hf : ∀ a, Q a → (f a).Abides m tree E R) : (p >>= f).Abides m tree E R := by
  show (p.bind f).Abides m tree E R
  induction p with
  | done a => exact hf a hp
  | fail e => exact hp
  | look next ih => exact fun s hs => ih s (hp s hs)
  | declare scope name value next ih => exact ⟨hp.1, ih hp.2⟩
  | print lines next ih => exact ih hp
  | node place n scope next ih => exact ⟨hp.1, fun flow hflow => ih flow (hp.2 flow hflow)⟩
  | call place c this args next ih => exact ⟨hp.1, hp.2.1, fun v hv => ih v (hp.2.2 v hv)⟩

/-- What an error is once it got a place is what counts. -/
theorem Abides.located {p : Plan α} {Q : α → Prop} {span : Span} (hp : p.Abides m tree (fun e => E (e.orSpan span)) Q) :
    (p.located span).Abides m tree E Q := by
  induction p with
  | done a => exact hp
  | fail e => exact hp
  | look next ih => exact fun s hs => ih s (hp s hs)
  | declare scope name value next ih => exact ⟨hp.1, ih hp.2⟩
  | print lines next ih => exact ih hp
  | node place n scope next ih => exact ⟨hp.1, fun flow hflow => ih flow (hp.2 flow hflow)⟩
  | call place c this args next ih =>
    refine ⟨hp.1, ?_, fun v hv => ih v (hp.2.2 v hv)⟩
    have hplace := hp.2.1
    cases place <;> exact hplace

/-! ### The parts of rules -/

theorem abides_pure {a : α} {Q : α → Prop} (h : Q a) : (pure a : Plan α).Abides m tree E Q := h

theorem abides_ofExcept {r : Except Cause α} {Q : α → Prop} (hok : ∀ a, r = .ok a → Q a)
    (herror : ∀ cause, r = .error cause → E (EvalError.of cause)) : (ofExcept r).Abides m tree E Q := by
  cases r with
  | ok a => exact hok a rfl
  | error cause => exact herror cause rfl

theorem abides_eval {n : Node} (h : tree.Holds n) (scope : ScopeId) :
    (eval n scope).Abides m tree E (fun flow => flow.value.Only (WrittenIn tree)) :=
  ⟨h, fun _ hflow => hflow⟩

theorem abides_lookup (scope : ScopeId) (name : String) : (lookup scope name).Abides m tree E (·.Only (WrittenIn tree)) :=
  fun _ hs => hs scope name

theorem abides_operand {n : Node} (h : tree.Holds n) (scope : ScopeId) :
    (operand n scope).Abides m tree E (·.Only (WrittenIn tree)) := by
  unfold operand
  split
  · exact abides_lookup scope _
  · exact (abides_eval h scope).bind fun _ hflow => abides_pure hflow

theorem abides_nameOf {n : Node} (h : tree.Holds n) (scope : ScopeId) : (nameOf n scope).Abides m tree E (fun _ => True) := by
  unfold nameOf
  split
  · exact abides_pure trivial
  · exact (abides_eval h scope).bind fun _ _ => abides_pure trivial

theorem abides_each {ns : List Node} (h : ∀ n ∈ ns, tree.Holds n) (scope : ScopeId) :
    (each ns scope).Abides m tree E (fun _ => True) := by
  induction ns with
  | nil => exact abides_pure trivial
  | cons n ns ih =>
    obtain ⟨hn, hns⟩ := List.forall_mem_cons.mp h
    exact (abides_eval hn scope).bind fun _ _ => ih hns

theorem abides_block {ns : List Node} (h : ∀ n ∈ ns, tree.Holds n) {last : Value} (hlast : last.Only (WrittenIn tree))
    (scope : ScopeId) : (block ns last scope).Abides m tree E (fun flow => flow.value.Only (WrittenIn tree)) := by
  induction ns generalizing last with
  | nil => exact abides_pure hlast
  | cons n ns ih =>
    obtain ⟨hn, hns⟩ := List.forall_mem_cons.mp h
    refine (abides_eval hn scope).bind fun flow hflow => ?_
    cases flow with
    | normal v => exact ih hns hflow
    | returned v => exact abides_pure hflow

theorem abides_list {ns : List Node} (h : ∀ n ∈ ns, tree.Holds n) (scope : ScopeId) :
    (list ns scope).Abides m tree E (fun vs => ∀ v ∈ vs, v.Only (WrittenIn tree)) := by
  induction ns with
  | nil => exact abides_pure (by simp)
  | cons n ns ih =>
    obtain ⟨hn, hns⟩ := List.forall_mem_cons.mp h
    refine (abides_eval hn scope).bind fun flow hflow => (ih hns).bind fun vs hvs => abides_pure ?_
    exact List.forall_mem_cons.mpr ⟨hflow, hvs⟩

theorem abides_arguments {ns : List Node} (h : ∀ n ∈ ns, tree.Holds n) (scope : ScopeId) :
    (arguments ns scope).Abides m tree E (fun vs => ∀ v ∈ vs, v.Only (WrittenIn tree)) := by
  induction ns with
  | nil => exact abides_pure (by simp)
  | cons n ns ih =>
    obtain ⟨hn, hns⟩ := List.forall_mem_cons.mp h
    refine (abides_operand hn scope).bind fun v hv => (ih hns).bind fun vs hvs => abides_pure ?_
    exact List.forall_mem_cons.mpr ⟨hv, hvs⟩

/-- A name that is taken cannot be declared. -/
theorem abides_declare {scope : ScopeId} {name : String} {f : Unit → Plan Flow} {Q : Flow → Prop}
    (htaken : E (EvalError.of (.duplicateDeclaration name))) (hf : (f ()).Abides m tree E Q) :
    (checkNew m scope name >>= f).Abides m tree E Q := by
  refine Abides.bind (Q := fun _ => True) ?_ fun _ _ => hf
  intro s _
  dsimp only
  split
  · exact htaken
  · trivial

theorem abides_bindName {scope : ScopeId} {name : String} {v : Value} (hv : v.Only (WrittenIn tree)) :
    (bindName scope name v).Abides m tree E (fun _ => True) :=
  ⟨hv, trivial⟩

/-- A call fails by itself for lack of room, or because the host does. -/
theorem abides_callValue (hhonest : m.host.Honest) (hplain : m.host.Plain) {f this : Value} {args : List Value}
    (hcallable : f.isCallable = true) (hf : f.Only (WrittenIn tree)) (hthis : this.Only (WrittenIn tree))
    (hargs : ∀ a ∈ args, a.Only (WrittenIn tree)) (hoverflow : E (EvalError.of (.stackOverflow m.options.maxCallDepth)))
    (hhost : ∀ e : EvalError, e.span = none → (∃ message, e.cause = .custom message) → E e) :
    (callValue m f this args).Abides m tree E (·.Only (WrittenIn tree)) := by
  cases f with
  | function c => exact ⟨⟨Value.only_function.mp hf, hthis, hargs⟩, hoverflow, fun _ hv => hv⟩
  | native name =>
    unfold callValue callHost
    simp only [Abides]
    split
    · rename_i v hv
      exact hhonest.only hthis hargs hv
    · rename_i e he
      obtain ⟨hnone, hcustom⟩ := hplain _ _ _ _ _ he
      exact hhost e hnone hcustom
  | _ => cases hcallable

theorem abides_callCallee (hhonest : m.host.Honest) (hplain : m.host.Plain) {callee : Node} {f this : Value}
    {args : List Value} (hf : f.Only (WrittenIn tree)) (hthis : this.Only (WrittenIn tree))
    (hargs : ∀ a ∈ args, a.Only (WrittenIn tree)) (hoverflow : E (EvalError.of (.stackOverflow m.options.maxCallDepth)))
    (hhost : ∀ e : EvalError, e.span = none → (∃ message, e.cause = .custom message) → E e)
    (hcallee : E ((EvalError.of (.notCallable (Eval.describeCallee callee))).withSpan callee.span)) :
    (callCallee m callee f this args).Abides m tree E (·.Only (WrittenIn tree)) := by
  unfold callCallee
  split
  · rename_i hcallable
    exact abides_callValue hhonest hplain hcallable hf hthis hargs hoverflow hhost
  · exact hcallee

/-- An identifier is the name it stands for. -/
theorem abides_ident (s : Span) (name : String) (scope : ScopeId) :
    (nameOf (.ident s name) scope).Abides m tree E (· = name) := rfl

theorem property_error {base : Value} {key : String} {cause : Cause} (h : base.property key = .error cause) :
    ∃ text, cause = .invalidPropertyAccess text key := by
  cases base with
  | undefined | null =>
    cases h
    exact ⟨_, rfl⟩
  | array es | string s =>
    simp only [Value.property] at h
    split at h <;> cases h
  | _ => cases h

/-- Every node that has the shape of its kind points at the node at fault when it fails by itself. -/
theorem rule_abides (hhonest : m.host.Honest) (hplain : m.host.Plain) :
    ∀ (n : Node) (scope : ScopeId), tree.Holds n → n.Formed →
      (rule m n scope).Abides m tree (Points m n) (fun flow => flow.value.Only (WrittenIn tree))
  | .program span body, scope, h, _ | .variables span _ body, scope, h, _ => by
    rw [rule]
    refine .located (.bind (abides_each (fun n hn => h.child hn) scope) fun _ _ => abides_pure ?_)
    exact Value.only_of_closures_nil rfl
  | .declarator span (.ident s name) none, scope, h, _ => by
    rw [rule]
    refine .located (.bind (abides_ident s name scope) ?_)
    rintro _ rfl
    refine abides_declare ⟨_, .declarator, rfl⟩ (.bind (abides_bindName ?_) fun _ _ => abides_pure ?_)
    · exact Value.only_of_closures_nil rfl
    · exact Value.only_of_closures_nil rfl
  | .declarator span (.ident s name) (some e), scope, h, _ => by
    have he : e ∈ (Node.declarator span (.ident s name) (some e)).children := by simp [Node.children]
    rw [rule]
    refine .located (.bind (abides_ident s name scope) ?_)
    rintro _ rfl
    refine abides_declare ⟨_, .declarator, rfl⟩ (.bind (abides_eval (h.child he) scope) fun flow hflow => ?_)
    exact .bind (abides_bindName hflow) fun _ _ => abides_pure (Value.only_of_closures_nil rfl)
  | .function span (.ident s name) params body, scope, h, _ => by
    rw [rule]
    refine .located (.bind (abides_ident s name scope) ?_)
    rintro _ rfl
    refine abides_declare ⟨_, .function, rfl⟩ (.bind (abides_bindName (Value.only_function.mpr h)) fun _ _ => abides_pure ?_)
    exact Value.only_of_closures_nil rfl
  | .returning span (some e), scope, h, _ | .expression span e, scope, h, _ => by
    rw [rule]
    exact .located (.bind (abides_eval (h.child List.mem_cons_self) scope) fun flow hflow => abides_pure hflow)
  | .block span body, scope, h, _ => by
    rw [rule]
    exact .located (abides_block (fun n hn => h.child hn) (Value.only_of_closures_nil rfl) scope)
  | .binary span op l r, scope, h, _ => by
    have hr : r ∈ (Node.binary span op l r).children := by simp [Node.children]
    rw [rule]
    refine .located (.bind (abides_operand (h.child List.mem_cons_self) scope) fun a _ => ?_)
    refine .bind (abides_operand (h.child hr) scope) fun b _ => ?_
    refine .bind (abides_ofExcept (Q := (·.closures = [])) (fun v hv => BinaryOp.apply_closures hv) fun cause hcause => ?_)
      fun v hv => abides_pure (Value.only_of_closures_nil hv)
    cases op <;> cases hcause <;> exact ⟨_, .operator, rfl⟩
  | .this span, scope, h, _ => .bind (abides_lookup scope "this") fun v hv => abides_pure hv
  | .array span es, scope, h, _ => by
    rw [rule]
    refine .located (.bind (abides_list (fun n hn => h.child hn) scope) fun vs hvs => abides_pure ?_)
    exact Value.only_array hvs
  | .member span o p computed, scope, h, _ => by
    have hp : p ∈ (Node.member span o p computed).children := by simp [Node.children]
    rw [rule]
    refine .located (.bind (abides_nameOf (h.child List.mem_cons_self) scope) fun name _ => ?_)
    refine .bind (abides_lookup scope name) fun base hbase => .bind (abides_eval (h.child hp) scope) fun key _ => ?_
    refine .bind (abides_ofExcept (fun v hv => hbase.property hv) fun cause hcause => ?_) fun v hv => abides_pure hv
    obtain ⟨text, rfl⟩ := property_error hcause
    exact ⟨_, .access, rfl⟩
  | .call span callee args, scope, h, _ => by
    have hargs := abides_arguments (E := fun e => Points m (.call span callee args) (e.orSpan span))
      (fun a ha => h.child (List.mem_cons_of_mem _ ha)) scope (m := m)
    have hcallee := h.child (List.mem_cons_self : callee ∈ (Node.call span callee args).children)
    have hnull : Value.null.Only (WrittenIn tree) := Value.only_of_closures_nil rfl
    have hoverflow : Points m (.call span callee args) ((EvalError.of (.stackOverflow m.options.maxCallDepth)).orSpan span) :=
      ⟨_, .overflow, rfl⟩
    have hhost (e : EvalError) (hnone : e.span = none) (hcustom : ∃ message, e.cause = .custom message) :
        Points m (.call span callee args) (e.orSpan span) := by
      obtain ⟨message, hcause⟩ := hcustom
      refine ⟨.call span callee args, ?_, by simp [EvalError.orSpan, hnone, Node.span]⟩
      rw [show (e.orSpan span).cause = .custom message from hcause]
      exact .host
    have hcalls {f this : Value} {as : List Value} (hf : f.Only (WrittenIn tree)) (hthis : this.Only (WrittenIn tree))
        (has : ∀ a ∈ as, a.Only (WrittenIn tree)) :
        (do return .normal (← callCallee m callee f this as) : Plan Flow).Abides m tree
          (fun e => Points m (.call span callee args) (e.orSpan span)) (fun flow : Flow => flow.value.Only (WrittenIn tree)) :=
      .bind (abides_callCallee hhonest hplain hf hthis has hoverflow hhost ⟨_, .callee, rfl⟩) fun v hv => abides_pure hv
    cases callee with
    | member s o p computed =>
      have hp : p ∈ (Node.member s o p computed).children := by simp [Node.children]
      rw [rule]
      refine .located (.bind hargs fun as has => ?_)
      refine .bind (abides_nameOf (hcallee.child List.mem_cons_self) scope) fun name _ => ?_
      refine .bind (abides_lookup scope name) fun base hbase => .bind (abides_eval (hcallee.child hp) scope) fun key _ => ?_
      refine .bind (.located (abides_ofExcept (fun v hv => hbase.property hv) fun cause hcause => ?_)) fun f hf => ?_
      · obtain ⟨text, rfl⟩ := property_error hcause
        exact ⟨_, .calleeAccess, rfl⟩
      · exact hcalls hf hbase has
    | _ =>
      rw [rule]
      · refine .located (.bind hargs fun as has => .bind (abides_nameOf hcallee scope) fun name _ => ?_)
        exact .bind (abides_lookup scope name) fun f hf => hcalls hf hnull has
      · simp
  | .unsupported span kind, scope, h, _ => ⟨_, .unsupported, rfl⟩
  | .returning span none, _, _, _ | .empty _, _, _, _ | .ident _ _, _, _, _ | .number _ _, _, _, _
  | .string _ _, _, _, _ | .bool _ _, _, _, _ | .null _, _, _, _ => Value.only_of_closures_nil rfl

end Plan

/-! ## Where a run fails -/

section
variable {ω : Type} [World ω]

/-- `Fails m p w e js`: performing the plan `p` from `w` fails with `e` while the evaluations `js`, each
    begun inside the one before, are under way; without any the plan fails by itself. -/
inductive Fails (m : Machine) : {α : Type} → Plan α → ω → EvalError → List (Job ω) → Prop
  | fail {α : Type} (e : EvalError) (w : ω) : Fails m (.fail e : Plan α) w e []
  | look {α : Type} {next : Scopes → Plan α} {w : ω} {e : EvalError} {js : List (Job ω)} :
      Fails m (next (World.store w).scopes) w e js → Fails m (.look next) w e js
  | declare {α : Type} {scope : ScopeId} {name : String} {value : Value} {next : Plan α} {w : ω} {e : EvalError}
      {js : List (Job ω)} :
      Fails m next (World.apply w (.bind scope name value)) e js → Fails m (.declare scope name value next) w e js
  | print {α : Type} {lines : List Line} {next : Plan α} {w : ω} {e : EvalError} {js : List (Job ω)} :
      Fails m next (World.apply w (.print lines)) e js → Fails m (.print lines next) w e js
  | inNode {α : Type} {place : Option Span} {n : Node} {scope : ScopeId} {next : Flow → Plan α} {w : ω} {e : EvalError}
      {js : List (Job ω)} :
      Fails m (rule m n scope) w e js → Fails m (.node place n scope next) w (e.placed place) (⟨n, scope, w⟩ :: js)
  | afterNode {α : Type} {place : Option Span} {n : Node} {scope : ScopeId} {next : Flow → Plan α} {w w₁ : ω}
      {flow : Flow} {e : EvalError} {js : List (Job ω)} :
      Runs m (rule m n scope) w (.ok flow w₁) → Fails m (next flow) w₁ e js → Fails m (.node place n scope next) w e js
  | inBody {α : Type} {place : Option Span} {c : Closure} {this : Value} {args : List Value} {next : Value → Plan α}
      {w : ω} {e : EvalError} {js : List (Job ω)} :
      (World.store w).depth < m.options.maxCallDepth →
      Fails m (body m w c this args) (World.entered w c this args) e js →
      Fails m (.call place c this args next) w (e.placed place)
        (⟨c.body, (World.store (World.entered w c this args)).scopes.latest, World.entered w c this args⟩ :: js)
  | afterCall {α : Type} {place : Option Span} {c : Closure} {this : Value} {args : List Value} {next : Value → Plan α}
      {w w₁ : ω} {flow : Flow} {e : EvalError} {js : List (Job ω)} :
      (World.store w).depth < m.options.maxCallDepth →
      Runs m (body m w c this args) (World.entered w c this args) (.ok flow w₁) →
      Fails m (next flow.result) (World.apply w₁ .leave) e js → Fails m (.call place c this args next) w e js
  | overflow {α : Type} {place : Option Span} {c : Closure} {this : Value} {args : List Value} {next : Value → Plan α}
      {w : ω} :
      m.options.maxCallDepth ≤ (World.store w).depth →
      Fails m (.call place c this args next) w ((EvalError.of (.stackOverflow m.options.maxCallDepth)).placed place) []

variable {m : Machine} {tree : Node}

/-- Every failing run fails somewhere. -/
theorem Runs.fails {α : Type} {p : Plan α} {w w' : ω} {e : EvalError} (h : Runs m p w (.error e w')) :
    ∃ js, Fails m p w e js := by
  generalize hr : EStateM.Result.error e w' = r at h
  induction h generalizing e w' with
  | done => cases hr
  | fail e w =>
    cases hr
    exact ⟨[], .fail e w⟩
  | look _ ih =>
    obtain ⟨js, hjs⟩ := ih hr
    exact ⟨js, .look hjs⟩
  | declare _ ih =>
    obtain ⟨js, hjs⟩ := ih hr
    exact ⟨js, .declare hjs⟩
  | print _ ih =>
    obtain ⟨js, hjs⟩ := ih hr
    exact ⟨js, .print hjs⟩
  | node hn _ _ ih =>
    obtain ⟨js, hjs⟩ := ih hr
    exact ⟨js, .afterNode hn hjs⟩
  | nodeFails _ ih =>
    cases hr
    obtain ⟨js, hjs⟩ := ih rfl
    exact ⟨_, .inNode hjs⟩
  | call hd hn _ _ ih =>
    obtain ⟨js, hjs⟩ := ih hr
    exact ⟨js, .afterCall hd hn hjs⟩
  | callFails hd _ ih =>
    cases hr
    obtain ⟨js, hjs⟩ := ih rfl
    exact ⟨_, .inBody hd hjs⟩
  | overflow ho =>
    cases hr
    exact ⟨[], .overflow ho⟩

theorem Fails.runs {α : Type} {p : Plan α} {w : ω} {e : EvalError} {js : List (Job ω)} (h : Fails m p w e js) :
    ∃ w', Runs m p w (.error e w') := by
  induction h with
  | fail e w => exact ⟨w, .fail e w⟩
  | look _ ih => exact ih.imp fun _ => .look
  | declare _ ih => exact ih.imp fun _ => .declare
  | print _ ih => exact ih.imp fun _ => .print
  | inNode _ ih => exact ih.imp fun _ => .nodeFails
  | afterNode hn _ ih => exact ih.imp fun _ => .node hn
  | inBody hd _ ih =>
    obtain ⟨w', hrun⟩ := ih
    exact ⟨_, .callFails hd hrun⟩
  | afterCall hd hn _ ih => exact ih.imp fun _ => .call hd hn
  | overflow ho => exact ⟨_, .overflow ho⟩

/-- A run fails exactly if it fails somewhere. -/
theorem fails_iff {α : Type} {p : Plan α} {w : ω} {e : EvalError} :
    (∃ js, Fails m p w e js) ↔ ∃ w', Runs m p w (.error e w') :=
  ⟨fun ⟨_, h⟩ => h.runs, fun ⟨_, h⟩ => h.fails⟩

/-- What a scope looks up in a store has only closures written in the tree. -/
theorem Store.Binds.get {P : Closure → Prop} {s : Store} (h : s.Binds P) (scope : ScopeId) (name : String) :
    (s.scopes.get scope name).Only P := by
  unfold Scopes.get
  cases hl : s.scopes.lookup scope name with
  | none => exact Value.only_of_closures_nil rfl
  | some v =>
    obtain ⟨j, hj⟩ := Scopes.lookup_bound hl
    exact h j name v hj

theorem Store.Binds.entered {P : Closure → Prop} {w : ω} {this : Value} {args : List Value} (h : (World.store w).Binds P)
    (ht : this.Only P) (ha : ∀ a ∈ args, a.Only P) (c : Closure) : (World.store (World.entered w c this args)).Binds P := by
  rw [World.store_apply]
  exact h.enter ht ha c

/-- The tree's nodes have the shapes of their kinds, and the host keeps to its own. -/
structure Sane (m : Machine) (tree : Node) : Prop where
  formed : ∀ n, tree.Holds n → n.Formed
  honest : m.host.Honest
  plain : m.host.Plain

section
variable (hs : Sane m tree)
include hs

theorem Sane.rule {n : Node} (h : tree.Holds n) (scope : ScopeId) :
    (rule m n scope).Abides m tree (Points m n) (fun flow => flow.value.Only (WrittenIn tree)) :=
  rule_abides hs.honest hs.plain n scope h (hs.formed n h)

/-- A run that is begun with closures of the tree ends with closures of the tree. -/
theorem Runs.abides {α : Type} {p : Plan α} {w : ω} {r : Ending ω α} (h : Runs m p w r) :
    ∀ {E : EvalError → Prop} {Q : α → Prop} {a : α} {w' : ω}, p.Abides m tree E Q →
      (World.store w).Binds (WrittenIn tree) → r = .ok a w' → Q a ∧ (World.store w').Binds (WrittenIn tree) := by
  induction h with
  | done a w =>
    rintro E Q _ _ hp hw ⟨⟩
    exact ⟨hp, hw⟩
  | fail | nodeFails | callFails | overflow =>
    intro E Q _ _ _ _ hr
    cases hr
  | look _ ih =>
    intro E Q _ _ hp hw hr
    exact ih (hp _ hw.get) hw hr
  | declare _ ih =>
    intro E Q _ _ hp hw hr
    refine ih hp.2 ?_ hr
    rw [World.store_apply]
    exact hw.bind hp.1 _ _
  | print _ ih =>
    intro E Q _ _ hp hw hr
    refine ih hp ?_ hr
    rw [World.store_apply]
    exact hw.print _
  | node _ _ ihn ih =>
    intro E Q _ _ hp hw hr
    obtain ⟨hflow, hw₁⟩ := ihn (hs.rule hp.1 _) hw rfl
    exact ih (hp.2 _ hflow) hw₁ hr
  | @call _ _ c this args next w w₁ flow r _ _ _ ihn ih =>
    intro E Q _ _ hp hw hr
    obtain ⟨⟨hc, hthis, hargs⟩, -, hnext⟩ := hp
    obtain ⟨hflow, hw₁⟩ := ihn (hs.rule hc.body _) (hw.entered hthis hargs c) rfl
    refine ih (hnext _ (Value.Only.result hflow)) ?_ hr
    rw [World.store_apply]
    exact hw₁.leave

/-- The error points at the node at fault in the last evaluation that is under way, and on its way out
    nothing is made of it any more. -/
theorem Fails.points {α : Type} {p : Plan α} {w : ω} {e : EvalError} {js : List (Job ω)} (h : Fails m p w e js) :
    ∀ {E : EvalError → Prop} {Q : α → Prop}, p.Abides m tree E Q → (World.store w).Binds (WrittenIn tree) →
      (js = [] → E e) ∧ (∀ j ∈ js, tree.Holds j.node) ∧ ∀ j ∈ js.getLast?, Points m j.node e := by
  -- An evaluation that is begun, and those under way inside it.
  have begun {j₀ : Job ω} {js : List (Job ω)} {e : EvalError} (hj₀ : tree.Holds j₀.node)
      (h : (js = [] → Points m j₀.node e) ∧ (∀ j ∈ js, tree.Holds j.node) ∧ ∀ j ∈ js.getLast?, Points m j.node e)
      (place : Option Span) :
      (∀ j ∈ j₀ :: js, tree.Holds j.node) ∧ ∀ j ∈ (j₀ :: js).getLast?, Points m j.node (e.placed place) := by
    obtain ⟨hnil, hholds, hlast⟩ := h
    refine ⟨List.forall_mem_cons.mpr ⟨hj₀, hholds⟩, ?_⟩
    cases js with
    | nil =>
      have hpoints := hnil rfl
      rw [hpoints.placed]
      simpa using hpoints
    | cons i is =>
      rw [List.getLast?_cons_cons]
      intro j hj
      have hpoints := hlast j hj
      rwa [hpoints.placed]
  induction h with
  | fail e w =>
    intro E Q hp hw
    exact ⟨fun _ => hp, by simp, by simp⟩
  | look _ ih =>
    intro E Q hp hw
    exact ih (hp _ hw.get) hw
  | declare _ ih =>
    intro E Q hp hw
    refine ih hp.2 ?_
    rw [World.store_apply]
    exact hw.bind hp.1 _ _
  | print _ ih =>
    intro E Q hp hw
    refine ih hp ?_
    rw [World.store_apply]
    exact hw.print _
  | @inNode _ place n scope next w e js _ ih =>
    intro E Q hp hw
    exact ⟨by simp, begun hp.1 (ih (hs.rule hp.1 scope) hw) place⟩
  | afterNode hn _ ih =>
    intro E Q hp hw
    obtain ⟨hflow, hw₁⟩ := hn.abides hs (hs.rule hp.1 _) hw rfl
    exact ih (hp.2 _ hflow) hw₁
  | @inBody _ place c this args next w e js _ _ ih =>
    intro E Q hp hw
    obtain ⟨⟨hc, hthis, hargs⟩, -, -⟩ := hp
    exact ⟨by simp, begun hc.body (ih (hs.rule hc.body _) (hw.entered hthis hargs c)) place⟩
  | @afterCall _ place c this args next w w₁ flow e js _ hn _ ih =>
    intro E Q hp hw
    obtain ⟨⟨hc, hthis, hargs⟩, -, hnext⟩ := hp
    obtain ⟨hflow, hw₁⟩ := hn.abides hs (hs.rule hc.body _) (hw.entered hthis hargs c) rfl
    refine ih (hnext _ (Value.Only.result hflow)) ?_
    rw [World.store_apply]
    exact hw₁.leave
  | overflow _ =>
    intro E Q hp hw
    exact ⟨fun _ => hp.2.1, by simp, by simp⟩

end

end

/-! ## Programs -/

theorem Blames.holds {m : Machine} {tree n b : Node} {cause : Cause} (h : Blames m n cause b) (hn : tree.Holds n) :
    tree.Holds b := by
  cases h with
  | callee | calleeAccess => exact hn.child List.mem_cons_self
  | _ => exact hn

/-- Where the evaluation of a program fails, the error carries the span of the node at fault in the last
    evaluation under way, a node of the program, and a stretch of its text. -/
theorem failure_blamed {source : String} {tree : Node} (h : parse source = .ok tree) {m : Machine} (hh : m.host.Honest)
    (hp : m.host.Plain) (seedConsole : Bool) {globals : Table Value} (hg : ∀ g ∈ globals, g.2.closures = []) {e : EvalError}
    {s' : Session} (hfail : (Session.new m seedConsole globals).evaluate tree = (.error e, s')) :
    let start : Job Store := ⟨tree, .global, (Session.new m seedConsole globals).store⟩
    ∃ js j, Fails m (rule m start.node start.scope) start.world e js ∧ (start :: js).getLast? = some j ∧
      (∀ i ∈ start :: js, i.node ∈ tree.nodes) ∧ ∃ b ∈ tree.nodes, Blames m j.node e.cause b ∧ e.span = some b.span ∧
        b.span.start ≤ b.span.stop ∧ b.span.stop ≤ source.utf8ByteSize := by
  intro start
  have hprogram := parse_isProgram h
  have hs : Sane m tree := ⟨fun n hn => hn.elim fun _ hn => (Node.IsShaped.of_located (.program hprogram) hn).formed, hh, hp⟩
  have hstore : start.world.Binds (WrittenIn tree) := (Session.new_closureFree m seedConsole hg).mono fun _ hc => hc.elim
  have hrun : ∃ w', m.evaluate tree .global start.world = .error e w' := by
    have hmachine := (Session.new_fresh m seedConsole globals).machine
    unfold Session.evaluate Session.perform at hfail
    rw [hmachine] at hfail
    split at hfail
    · cases hfail
    · rename_i e' w' heq
      cases hfail
      exact ⟨w', heq⟩
  obtain ⟨w', hw'⟩ := hrun
  have hruns := runs_eval (m := m) _ tree .global start.world rfl
  rw [show Eval.eval m _ tree .global start.world = .error e w' from hw'] at hruns
  obtain ⟨js, hjs⟩ := hruns.fails
  obtain ⟨hnil, hholds, hlast⟩ := hjs.points hs (hs.rule .root _) hstore
  have hstart : ∀ i ∈ start :: js, tree.Holds i.node := List.forall_mem_cons.mpr ⟨.root, hholds⟩
  obtain ⟨j, hj⟩ : ∃ j, (start :: js).getLast? = some j := ⟨_, List.getLast?_eq_some_getLast (List.cons_ne_nil _ _)⟩
  have hpoints : Points m j.node e := by
    cases js with
    | nil =>
      cases hj
      exact hnil rfl
    | cons i is => exact hlast j (by rwa [List.getLast?_cons_cons] at hj)
  obtain ⟨b, hblames, hspan⟩ := hpoints
  have hb := (hblames.holds (hstart j (List.mem_of_getLast? hj))).mem_nodes
  exact ⟨js, j, hjs, hj, fun i hi => (hstart i hi).mem_nodes, b, hb, hblames, hspan, spans_inside h hb⟩

/-- A parameter that is called and is no function: the callee in the body of the function is at fault,
    not the call of the function. -/
theorem failure_blamed_in_body :
    ∃ tree e s', parse "function f(g) \x7b g(); \x7d f('a');" = .ok tree ∧
      (Session.new ⟨.default, Console.host, false⟩ true []).evaluate tree = (.error e, s') ∧ e.span = some ⟨16, 17⟩ ∧
      let m : Machine := ⟨.default, Console.host, false⟩
      let start : Job Store := ⟨tree, .global, (Session.new m true []).store⟩
      ∃ js j, Fails m (rule m start.node start.scope) start.world e js ∧ (start :: js).getLast? = some j ∧
        (∀ i ∈ start :: js, i.node ∈ tree.nodes) ∧ ∃ b ∈ tree.nodes, Blames m j.node e.cause b ∧ e.span = some b.span ∧
          b.span.start ≤ b.span.stop ∧ b.span.stop ≤ "function f(g) \x7b g(); \x7d f('a');".utf8ByteSize := by
  have hspan : (match parse "function f(g) \x7b g(); \x7d f('a');" with
      | .ok tree =>
        match ((Session.new ⟨.default, Console.host, false⟩ true []).evaluate tree).1 with
        | .error e => e.span
        | .ok _ => none
      | .error _ => none) = some ⟨16, 17⟩ := by decide +kernel
  split at hspan
  · rename_i tree htree
    cases hfail : (Session.new ⟨.default, Console.host, false⟩ true []).evaluate tree with
    | mk result s' =>
      rw [hfail] at hspan
      cases result with
      | ok flow => cases hspan
      | error e =>
        have hhost : ∀ g ∈ ([] : Table Value), g.2.closures = [] := by simp
        exact ⟨tree, e, s', htree, hfail, hspan,
          failure_blamed htree Console.host_honest Console.host_plain true hhost hfail⟩
  · cases hspan

end Treewalk
