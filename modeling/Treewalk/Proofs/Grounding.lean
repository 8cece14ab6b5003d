/-
  Treewalk.Proofs.Grounding — only scopes that exist are handled.

  A store is `Grounded` if its scopes are rooted and every closure that occurs in a binding captured a
  scope that exists. A plan is grounded in a scope if it reads and binds names there only, evaluates
  nodes there only, and binds, calls, passes and gives nothing but closures that captured scopes within
  a `Reach`, such as the existing ones, as long as only such are answered.

  Proved: each change that evaluation makes keeps a store grounded, and the plan of every node is
  grounded in the scope the node is evaluated in (`rule_grounded`).
-/

import Treewalk.Proofs.Closures
import Treewalk.Proofs.Plan
import Treewalk.Proofs.Searching

namespace Treewalk

/-- The closure captured one of the first `k` scopes. -/
def Closure.Below (k : Nat) (c : Closure) : Prop := c.scope.index < k

/-- All closures in the value captured one of the first `k` scopes. -/
abbrev Value.Below (k : Nat) (v : Value) : Prop := v.Only (Closure.Below k)

theorem Value.Below.mono {k l : Nat} {v : Value} (h : v.Below k) (hkl : k ≤ l) : v.Below l :=
  Value.Only.mono h fun _ hc => Nat.lt_of_lt_of_le hc hkl

/-- The same of what a node completed with. -/
abbrev Flow.Below (k : Nat) (flow : Flow) : Prop := flow.value.Below k

/-- The same of every value in a list. -/
abbrev AllBelow (k : Nat) (vs : List Value) : Prop := ∀ v ∈ vs, v.Below k

theorem AllBelow.mono {k l : Nat} {vs : List Value} (h : AllBelow k vs) (hkl : k ≤ l) : AllBelow l vs :=
  fun v hv => (h v hv).mono hkl

/-! ## Scopes within reach -/

/-- Which scopes may be handled when there are so many. With more scopes there are no fewer of them. -/
structure Reach where
  has : Nat → ScopeId → Prop
  mono : ∀ {k l : Nat} {i : ScopeId}, k ≤ l → has k i → has l i

/-- The scopes that exist. -/
def Reach.existing : Reach := ⟨fun k i => i.index < k, fun hkl hi => Nat.lt_of_lt_of_le hi hkl⟩

/-- All closures in the value captured scopes within reach when there are `k` scopes. -/
abbrev Value.Inside (K : Reach) (k : Nat) (v : Value) : Prop := v.Only fun c => K.has k c.scope

theorem Value.Inside.mono {K : Reach} {k l : Nat} {v : Value} (h : v.Inside K k) (hkl : k ≤ l) : v.Inside K l :=
  Value.Only.mono h fun _ hc => K.mono hkl hc

/-- The same of what a node completed with. -/
abbrev Flow.Inside (K : Reach) (k : Nat) (flow : Flow) : Prop := flow.value.Inside K k

/-- The same of every value in a list. -/
abbrev AllInside (K : Reach) (k : Nat) (vs : List Value) : Prop := ∀ v ∈ vs, v.Inside K k

theorem AllInside.mono {K : Reach} {k l : Nat} {vs : List Value} (h : AllInside K k vs) (hkl : k ≤ l) : AllInside K l vs :=
  fun v hv => (h v hv).mono hkl

/-! ## Grounded stores -/

structure Store.Grounded (s : Store) : Prop where
  rooted : s.scopes.Rooted
  captured : s.Binds (Closure.Below s.scopes.size)

namespace Store.Grounded

variable {s : Store}

theorem bind (h : s.Grounded) {v : Value} (hv : v.Below s.scopes.size) (scope : ScopeId) (name : String) :
    (s.apply (.bind scope name v)).Grounded := by
  refine ⟨h.rooted.set scope name v, ?_⟩
  simp only [apply, Scopes.size_set]
  exact h.captured.bind hv scope name

theorem enter (h : s.Grounded) {c : Closure} {this : Value} {args : List Value} (hc : c.Below s.scopes.size)
    (ht : this.Below s.scopes.size) (ha : AllBelow s.scopes.size args) :
    (s.apply (.enter c this args)).Grounded := by
  refine ⟨(h.rooted.push hc).update _ _, (h.captured.enter ht ha c).mono fun d hd => ?_⟩
  exact Nat.lt_of_lt_of_le hd (s.size_le_apply _)

theorem leave (h : s.Grounded) : (s.apply .leave).Grounded := ⟨h.rooted, h.captured.leave⟩

theorem print (h : s.Grounded) (lines : List Line) : (s.apply (.print lines)).Grounded := by
  refine ⟨?_, ?_⟩
  · rw [apply_print_scopes]
    exact h.rooted
  · rw [apply_print_scopes]
    exact h.captured.print lines

theorem get (h : s.Grounded) (scope : ScopeId) (name : String) : (s.scopes.get scope name).Below s.scopes.size := by
  unfold Scopes.get
  cases hv : s.scopes.lookup scope name with
  | none => exact Value.only_of_closures_nil rfl
  | some v =>
    obtain ⟨i, hi⟩ := Scopes.lookup_bound hv
    exact h.captured i name v hi

end Store.Grounded

/-! ## Grounded plans -/

namespace Plan

variable {α β : Type} {K : Reach} {scope : ScopeId} {k : Nat}

/-- When there are `k` scopes, the plan works in `scope` alone and handles only closures that captured
    scopes within reach, if only such are answered; what it gives when there are `l` scopes is in `Q l`. -/
inductive Grounded (K : Reach) (scope : ScopeId) (Q : Nat → α → Prop) : Nat → Plan α → Prop where
  | done {k : Nat} {a : α} : Q k a → Grounded K scope Q k (.done a)
  | fail {k : Nat} (e : EvalError) : Grounded K scope Q k (.fail e)
  | get {k : Nat} (name : String) (next : Value → Plan α) :
      (∀ v : Value, v.Inside K k → Grounded K scope Q k (next v)) → Grounded K scope Q k (.look fun s => next (s.get scope name))
  | check {k : Nat} (r : Redeclaration) (name : String) (next : Bool → Plan α) :
      (∀ b, Grounded K scope Q k (next b)) → Grounded K scope Q k (.look fun s => next (r.takes s scope name))
  | declare {k : Nat} (name : String) {v : Value} {next : Plan α} :
      v.Inside K k → Grounded K scope Q k next → Grounded K scope Q k (.declare scope name v next)
  | print {k : Nat} (lines : List Line) {next : Plan α} : Grounded K scope Q k next → Grounded K scope Q k (.print lines next)
  | node {k : Nat} (place : Option Span) (n : Node) {next : Flow → Plan α} :
      (∀ (l : Nat) (flow : Flow), k ≤ l → flow.Inside K l → Grounded K scope Q l (next flow)) →
      Grounded K scope Q k (.node place n scope next)
  | call {k : Nat} (place : Option Span) {c : Closure} {this : Value} {args : List Value} {next : Value → Plan α} :
      K.has k c.scope → this.Inside K k → AllInside K k args →
      (∀ (l : Nat) (v : Value), k ≤ l → v.Inside K l → Grounded K scope Q l (next v)) →
      Grounded K scope Q k (.call place c this args next)

theorem Grounded.bind {p : Plan α} {f : α → Plan β} {P : Nat → α → Prop} {Q : Nat → β → Prop}
    (hp : p.Grounded K scope P k) (hf : ∀ l a, k ≤ l → P l a → (f a).Grounded K scope Q l) :
    (p >>= f).Grounded K scope Q k := by
  show (p.bind f).Grounded K scope Q k
  induction hp with
  | done ha => exact hf _ _ (Nat.le_refl _) ha
  | fail e => exact .fail e
  | get name next _ ih => exact .get name (fun v => (next v).bind f) fun v hv => ih v hv hf
  | check r name next _ ih => exact .check r name (fun b => (next b).bind f) fun b => ih b hf
  | declare name hv _ ih => exact .declare name hv (ih hf)
  | print lines _ ih => exact .print lines (ih hf)
  | node place n _ ih =>
    exact .node place n fun l flow hl hv => ih l flow hl hv fun l' a hl' ha => hf l' a (Nat.le_trans hl hl') ha
  | call place hc ht ha _ ih =>
    exact .call place hc ht ha fun l v hl hv => ih l v hl hv fun l' a hl' ha => hf l' a (Nat.le_trans hl hl') ha

theorem Grounded.located {p : Plan α} {Q : Nat → α → Prop} (hp : p.Grounded K scope Q k) (span : Span) :
    (p.located span).Grounded K scope Q k := by
  induction hp with
  | done ha => exact .done ha
  | fail e => exact .fail _
  | get name next _ ih => exact .get name (fun v => (next v).located span) ih
  | check r name next _ ih => exact .check r name (fun b => (next b).located span) ih
  | declare name hv _ ih => exact .declare name hv ih
  | print lines _ ih => exact .print lines ih
  | node place n _ ih => exact .node _ n ih
  | call place hc ht ha _ ih => exact .call _ hc ht ha ih

/-! ### The parts of rules -/

theorem grounded_pure {a : α} {Q : Nat → α → Prop} (h : Q k a) : (pure a : Plan α).Grounded K scope Q k := .done h

theorem grounded_normal {v : Value} (h : v.Inside K k) : (pure (.normal v) : Plan Flow).Grounded K scope (Flow.Inside K) k :=
  .done h

theorem grounded_returned {v : Value} (h : v.Inside K k) : (pure (.returned v) : Plan Flow).Grounded K scope (Flow.Inside K) k :=
  .done h

/-- A value without closures, which most nodes give. -/
theorem grounded_plain {v : Value} (h : v.closures = []) : (pure (.normal v) : Plan Flow).Grounded K scope (Flow.Inside K) k :=
  grounded_normal (Value.only_of_closures_nil h)

theorem grounded_ofExcept {r : Except Cause α} {Q : Nat → α → Prop} (h : ∀ a, r = .ok a → Q k a) :
    (ofExcept r).Grounded K scope Q k := by
  cases r with
  | ok a => exact .done (h a rfl)
  | error cause => exact .fail _

theorem grounded_property {base : Value} {key : String} (h : base.Inside K k) :
    (ofExcept (base.property key)).Grounded K scope (Value.Inside K) k :=
  grounded_ofExcept fun _ hv => h.property hv

theorem grounded_eval (n : Node) : (eval n scope).Grounded K scope (Flow.Inside K) k :=
  .node none n fun _ _ _ hv => .done hv

theorem grounded_lookup (name : String) : (lookup scope name).Grounded K scope (Value.Inside K) k :=
  .get name .done fun _ hv => .done hv

theorem grounded_bindName (name : String) {v : Value} (hv : v.Inside K k) :
    (bindName scope name v).Grounded K scope (fun _ _ => True) k :=
  .declare name hv (.done trivial)

theorem grounded_operand (n : Node) : (operand n scope).Grounded K scope (Value.Inside K) k := by
  unfold operand
  split
  · exact grounded_lookup _
  · exact (grounded_eval n).bind fun _ _ _ hv => grounded_pure hv

theorem grounded_nameOf (n : Node) : (nameOf n scope).Grounded K scope (fun _ _ => True) k := by
  unfold nameOf
  split
  · exact grounded_pure trivial
  · exact (grounded_eval n).bind fun _ _ _ _ => grounded_pure trivial

theorem grounded_each (ns : List Node) : (each ns scope).Grounded K scope (fun _ _ => True) k := by
  induction ns generalizing k with
  | nil => exact grounded_pure trivial
  | cons n ns ih => exact (grounded_eval n).bind fun _ _ _ _ => ih

theorem grounded_block (ns : List Node) {last : Value} (hlast : last.Inside K k) :
    (block ns last scope).Grounded K scope (Flow.Inside K) k := by
  induction ns generalizing k last with
  | nil => exact grounded_pure hlast
  | cons n ns ih =>
    refine (grounded_eval n).bind fun l flow _ hv => ?_
    cases flow with
    | normal v => exact ih hv
    | returned v => exact grounded_pure hv

theorem grounded_list (ns : List Node) : (list ns scope).Grounded K scope (AllInside K) k := by
  induction ns generalizing k with
  | nil => exact grounded_pure (List.forall_mem_nil _)
  | cons n ns ih =>
    refine (grounded_eval n).bind fun l flow _ hv => ih.bind fun l' vs hl hvs => grounded_pure ?_
    exact List.forall_mem_cons.mpr ⟨hv.mono hl, hvs⟩

theorem grounded_arguments (ns : List Node) :
    (arguments ns scope).Grounded K scope (AllInside K) k := by
  induction ns generalizing k with
  | nil => exact grounded_pure (List.forall_mem_nil _)
  | cons n ns ih =>
    refine (grounded_operand n).bind fun l v _ hv => ih.bind fun l' vs hl hvs => grounded_pure ?_
    exact List.forall_mem_cons.mpr ⟨hv.mono hl, hvs⟩

section
variable {m : Machine}

theorem grounded_checkNew (name : String) : (checkNew m scope name).Grounded K scope (fun _ _ => True) k := by
  refine .check m.options.redeclaration name
    (fun b => if b then .fail (EvalError.of (.duplicateDeclaration name)) else .done ()) fun b => ?_
  cases b
  · exact .done trivial
  · exact .fail _

/-- What follows when a declared name is known to be free. -/
theorem grounded_declare (name : String) {v : Value} (hv : v.Inside K k) :
    (do bindName scope name v; return Flow.normal .undefined).Grounded K scope (Flow.Inside K) k :=
  (grounded_bindName name hv).bind fun _ _ _ _ => grounded_plain rfl

variable (hm : m.host.Honest)
include hm

theorem grounded_callValue {f this : Value} {args : List Value} (hf : f.Inside K k) (ht : this.Inside K k)
    (ha : AllInside K k args) : (callValue m f this args).Grounded K scope (Value.Inside K) k := by
  unfold callValue
  split
  · exact .call none (Value.only_function.mp hf) ht ha fun _ _ _ hv => .done hv
  · refine .print _ ?_
    split
    · rename_i v hv
      exact .done (hm.only ht ha hv)
    · exact .fail _
  · exact .fail _

theorem grounded_callCallee (callee : Node) {f this : Value} {args : List Value} (hf : f.Inside K k) (ht : this.Inside K k)
    (ha : AllInside K k args) : (callCallee m callee f this args).Grounded K scope (Value.Inside K) k := by
  unfold callCallee
  split
  · exact grounded_callValue hm hf ht ha
  · exact .fail _

end

/-- The plan of every kind of node is grounded in the scope the node is evaluated in. -/
theorem rule_grounded {m : Machine} (hm : m.host.Honest) (n : Node) (hscope : K.has k scope) :
    (rule m n scope).Grounded K scope (Flow.Inside K) k := by
  match n with
  | .program span body | .variables span _ body =>
    rw [rule]
    exact .located (.bind (grounded_each body) fun _ _ _ _ => grounded_plain rfl) span
  | .declarator span id none =>
    rw [rule]
    refine .located (.bind (grounded_nameOf id) fun _ name _ _ => ?_) span
    exact .bind (grounded_checkNew name) fun _ _ _ _ => grounded_declare name (Value.only_of_closures_nil rfl)
  | .declarator span id (some init) =>
    rw [rule]
    refine .located (.bind (grounded_nameOf id) fun _ name _ _ => ?_) span
    refine .bind (grounded_checkNew name) fun _ _ _ _ => .bind (grounded_eval init) fun _ flow _ hv => ?_
    exact grounded_declare name hv
  | .function span id params body =>
    rw [rule]
    refine .located (.bind (grounded_nameOf id) fun _ name hl _ => .bind (grounded_checkNew name) fun _ _ hl' _ => ?_) span
    -- The one closure that evaluation makes captures the scope it is made in.
    have hscope' := K.mono (Nat.le_trans hl hl') hscope
    exact grounded_declare name (Value.only_function.mpr hscope')
  | .returning span none => exact grounded_returned (Value.only_of_closures_nil rfl)
  | .empty span | .ident span _ | .number span _ | .string span _ | .bool span _ | .null span =>
    exact grounded_plain rfl
  | .returning span (some e) =>
    rw [rule]
    exact .located (.bind (grounded_eval e) fun _ _ _ hv => grounded_returned hv) span
  | .expression span e =>
    rw [rule]
    exact .located (.bind (grounded_eval e) fun _ _ _ hv => grounded_normal hv) span
  | .block span body =>
    rw [rule]
    exact .located (grounded_block body (Value.only_of_closures_nil rfl)) span
  | .binary span op left right =>
    rw [rule]
    refine .located (.bind (grounded_operand left) fun _ a _ _ => .bind (grounded_operand right) fun _ b _ _ => ?_) span
    refine .bind (P := fun _ v => v.closures = []) (grounded_ofExcept fun v hv => BinaryOp.apply_closures hv) ?_
    exact fun _ v _ hv => grounded_plain hv
  | .this span => exact .bind (grounded_lookup "this") fun _ _ _ hv => grounded_normal hv
  | .array span elements =>
    rw [rule]
    exact .located (.bind (grounded_list elements) fun _ _ _ hvs => grounded_normal (Value.only_array hvs)) span
  | .member span object property computed =>
    rw [rule]
    refine .located (.bind (grounded_nameOf object) fun _ name _ _ => ?_) span
    refine .bind (grounded_lookup name) fun _ base _ hbase => .bind (grounded_eval property) fun _ key hl _ => ?_
    exact .bind (grounded_property (hbase.mono hl)) fun _ v _ hv => grounded_normal hv
  | .call span callee args =>
    cases callee with
    | member memberSpan object property computed =>
      rw [rule]
      refine .located (.bind (grounded_arguments args) fun _ args _ hargs => ?_) span
      refine .bind (grounded_nameOf object) fun _ name hl₁ _ => .bind (grounded_lookup name) fun _ base hl₂ hbase => ?_
      refine .bind (grounded_eval property) fun _ key hl₃ _ => ?_
      refine .bind ((grounded_property (hbase.mono hl₃)).located memberSpan) fun _ f hl₄ hf => ?_
      have hargs' := hargs.mono (Nat.le_trans hl₁ (Nat.le_trans hl₂ (Nat.le_trans hl₃ hl₄)))
      refine .bind (grounded_callCallee hm _ hf (hbase.mono (Nat.le_trans hl₃ hl₄)) hargs') ?_
      exact fun _ v _ hv => grounded_normal hv
    | _ =>
      rw [rule]
      · refine .located (.bind (grounded_arguments args) fun _ args _ hargs => ?_) span
        refine .bind (grounded_nameOf _) fun _ name hl₁ _ => .bind (grounded_lookup name) fun _ f hl₂ hf => ?_
        have hargs' := hargs.mono (Nat.le_trans hl₁ hl₂)
        refine .bind (grounded_callCallee hm _ hf (Value.only_of_closures_nil (v := .null) rfl) hargs') ?_
        exact fun _ v _ hv => grounded_normal hv
      · simp
  | .unsupported span kind => exact .fail _

end Plan

end Treewalk
