/-
  Treewalk.Proofs.InBounds — the numbers of scopes never dangle.

  `RunsInBounds` gives the rules of evaluation once more, as they are where the number of a scope is an
  index: there is a rule for a step only if the scope that the step reads, binds in or nests into
  exists, and a name is searched from scope to scope.

  Proved: from a grounded store every run is in bounds, leaves a grounded store and gives a value whose
  closures captured existing scopes, however it ends (`Runs.inBounds`). Hence all this holds of every
  evaluation and call in a session, whatever was evaluated, defined and called before
  (`Session.attained_inBounds`).
-/

import Treewalk.Proofs.Grounding
import Treewalk.Proofs.Sessions
import Treewalk.Proofs.Termination

namespace Treewalk

/-! ## Runs in which the number of a scope is an index -/

section
variable {ω : Type} [World ω]

open Plan

/-- The scopes of a world. -/
abbrev World.scopes (w : ω) : Scopes := (World.store w).scopes

/-- `RunsInBounds m p w r`: performing the plan `p` from `w` ends in `r`, and each scope it works on
    exists at the time. A name is searched without a bound, and a call makes a scope inside the one that
    its closure captured. -/
inductive RunsInBounds (m : Machine) : {α : Type} → Plan α → ω → Ending ω α → Prop
  | done {α : Type} (a : α) (w : ω) : RunsInBounds m (.done a) w (.ok a w)
  | fail {α : Type} (e : EvalError) (w : ω) : RunsInBounds m (.fail e : Plan α) w (.error e w)
  | get {α : Type} {scope : ScopeId} {name : String} {next : Value → Plan α} {w : ω} {r : Ending ω α} :
      (World.scopes w).Search name scope ((World.scopes w).lookup scope name) →
      RunsInBounds m (next ((World.scopes w).get scope name)) w r →
      RunsInBounds m (.look fun s => next (s.get scope name)) w r
  | check {α : Type} {d : Redeclaration} {scope : ScopeId} {name : String} {next : Bool → Plan α} {w : ω}
      {r : Ending ω α} :
      (World.scopes w).Has scope → RunsInBounds m (next (d.takes (World.scopes w) scope name)) w r →
      RunsInBounds m (.look fun s => next (d.takes s scope name)) w r
  | declare {α : Type} {scope : ScopeId} {name : String} {value : Value} {next : Plan α} {w : ω} {r : Ending ω α} :
      (World.scopes w).Has scope → RunsInBounds m next (World.apply w (.bind scope name value)) r →
      RunsInBounds m (.declare scope name value next) w r
  | print {α : Type} {lines : List Line} {next : Plan α} {w : ω} {r : Ending ω α} :
      RunsInBounds m next (World.apply w (.print lines)) r → RunsInBounds m (.print lines next) w r
  | node {α : Type} {place : Option Span} {n : Node} {scope : ScopeId} {next : Flow → Plan α} {w w₁ : ω}
      {flow : Flow} {r : Ending ω α} :
      RunsInBounds m (rule m n scope) w (.ok flow w₁) → RunsInBounds m (next flow) w₁ r →
      RunsInBounds m (.node place n scope next) w r
  | nodeFails {α : Type} {place : Option Span} {n : Node} {scope : ScopeId} {next : Flow → Plan α} {w w₁ : ω}
      {e : EvalError} :
      RunsInBounds m (rule m n scope) w (.error e w₁) →
      RunsInBounds m (.node place n scope next) w (.error (e.placed place) w₁)
  | call {α : Type} {place : Option Span} {c : Closure} {this : Value} {args : List Value} {next : Value → Plan α}
      {w w₁ : ω} {flow : Flow} {r : Ending ω α} :
      (World.store w).depth < m.options.maxCallDepth → (World.scopes w).Has c.scope →
      RunsInBounds m (body m w c this args) (World.entered w c this args) (.ok flow w₁) →
      RunsInBounds m (next flow.result) (World.apply w₁ .leave) r →
      RunsInBounds m (.call place c this args next) w r
  | callFails {α : Type} {place : Option Span} {c : Closure} {this : Value} {args : List Value}
      {next : Value → Plan α} {w w₁ : ω} {e : EvalError} :
      (World.store w).depth < m.options.maxCallDepth → (World.scopes w).Has c.scope →
      RunsInBounds m (body m w c this args) (World.entered w c this args) (.error e w₁) →
      RunsInBounds m (.call place c this args next) w (.error (e.placed place) (World.apply w₁ .leave))
  | overflow {α : Type} {place : Option Span} {c : Closure} {this : Value} {args : List Value}
      {next : Value → Plan α} {w : ω} :
      m.options.maxCallDepth ≤ (World.store w).depth →
      RunsInBounds m (.call place c this args next) w
        (.error ((EvalError.of (.stackOverflow m.options.maxCallDepth)).placed place) w)

variable {α : Type} {m : Machine} {p : Plan α} {w : ω} {r : Ending ω α}

/-- A run in bounds is a run. -/
theorem RunsInBounds.runs (h : RunsInBounds m p w r) : Runs m p w r := by
  induction h with
  | done a w => exact .done a w
  | fail e w => exact .fail e w
  | get _ _ ih | check _ _ ih => exact .look ih
  | declare _ _ ih => exact .declare ih
  | print _ ih => exact .print ih
  | node _ _ ihn ih => exact .node ihn ih
  | nodeFails _ ihn => exact .nodeFails ihn
  | call hd _ _ _ ihn ih => exact .call hd ihn ih
  | callFails hd _ _ ihn => exact .callFails hd ihn
  | overflow hd => exact .overflow hd

/-- The store is grounded and has no less than `k` scopes; a value is in `Q` for as many as it has. -/
def Ending.Grounded {ω α : Type} [World ω] (k : Nat) (Q : Nat → α → Prop) : Ending ω α → Prop
  | .ok a w => (World.store w).Grounded ∧ k ≤ (World.scopes w).size ∧ Q (World.scopes w).size a
  | .error _ w => (World.store w).Grounded ∧ k ≤ (World.scopes w).size

theorem Ending.Grounded.mono {k l : Nat} {Q : Nat → α → Prop} (h : r.Grounded l Q) (hkl : k ≤ l) : r.Grounded k Q := by
  cases r with
  | ok a w => exact ⟨h.1, Nat.le_trans hkl h.2.1, h.2.2⟩
  | error e w => exact ⟨h.1, Nat.le_trans hkl h.2⟩

section
variable (scope : ScopeId) (name : String) (v : Value) (lines : List Line) (c : Closure) (this : Value) (args : List Value)

theorem size_bind : (World.scopes (World.apply w (.bind scope name v))).size = (World.scopes w).size := by
  simp [World.scopes, World.store_apply, Store.apply]

theorem size_print : (World.scopes (World.apply w (.print lines))).size = (World.scopes w).size := by
  simp [World.scopes, World.store_apply]

theorem size_leave : (World.scopes (World.apply w .leave)).size = (World.scopes w).size := by
  simp [World.scopes, World.store_apply, Store.apply]

theorem size_entered : (World.scopes (World.entered w c this args)).size = (World.scopes w).size + 1 := by
  simp [World.scopes, World.store_apply, Store.apply]

end

theorem grounded_entered {c : Closure} {this : Value} {args : List Value} (hw : (World.store w).Grounded)
    (hc : c.Below (World.scopes w).size) (ht : this.Below (World.scopes w).size)
    (ha : AllBelow (World.scopes w).size args) :
    (World.store (World.entered w c this args)).Grounded ∧
      (World.scopes (World.entered w c this args)).Has (World.scopes (World.entered w c this args)).latest := by
  refine ⟨?_, ?_⟩
  · rw [World.store_apply]
    exact hw.enter hc ht ha
  · have hlatest := ScopeId.index_ofIndex_le ((World.scopes (World.entered w c this args)).size - 1)
    rw [size_entered] at hlatest
    rw [Scopes.Has, Scopes.latest, size_entered]
    exact Nat.lt_succ_of_le hlatest

theorem grounded_left {c : Closure} {this : Value} {args : List Value} {w' : ω} (h : (World.store w').Grounded)
    (hle : (World.scopes (World.entered w c this args)).size ≤ (World.scopes w').size) :
    (World.store (World.apply w' .leave)).Grounded ∧ (World.scopes w).size ≤ (World.scopes (World.apply w' .leave)).size := by
  refine ⟨?_, ?_⟩
  · rw [World.store_apply]
    exact h.leave
  · rw [size_entered] at hle
    rw [size_leave]
    omega

/-- By induction on the run: what one step of a grounded plan keeps, the whole run keeps. -/
theorem Runs.inBounds (hm : m.host.Honest) (h : Runs m p w r) {scope : ScopeId} {Q : Nat → α → Prop}
    (hw : (World.store w).Grounded) (hscope : (World.scopes w).Has scope)
    (hp : p.Grounded .existing scope Q (World.scopes w).size) :
    RunsInBounds m p w r ∧ r.Grounded (World.scopes w).size Q := by
  induction h generalizing scope with
  | done a w =>
    cases hp with
    | done ha => exact ⟨.done a w, hw, Nat.le_refl _, ha⟩
  | fail e w => exact ⟨.fail e w, hw, Nat.le_refl _⟩
  | look _ ih =>
    cases hp with
    | get name next hnext =>
      obtain ⟨hrun, hend⟩ := ih hw hscope (hnext _ (hw.get scope name))
      exact ⟨.get (hw.rooted.search hscope name) hrun, hend⟩
    | check d name next hnext =>
      obtain ⟨hrun, hend⟩ := ih hw hscope (hnext _)
      exact ⟨.check hscope hrun, hend⟩
  | @declare _ i name value next w r _ ih =>
    cases hp with
    | declare _ hv hnext =>
      have hsize := size_bind (w := w) i name value
      have hw' : (World.store (World.apply w (.bind i name value))).Grounded := by
        rw [World.store_apply]
        exact hw.bind hv i name
      rw [← hsize] at hnext ⊢
      obtain ⟨hrun, hend⟩ := ih hw' (hsize.symm ▸ hscope : _ < _) hnext
      exact ⟨.declare hscope hrun, hend⟩
  | @print _ lines next w r _ ih =>
    cases hp with
    | print _ hnext =>
      have hsize := size_print (w := w) lines
      have hw' : (World.store (World.apply w (.print lines))).Grounded := by
        rw [World.store_apply]
        exact hw.print lines
      rw [← hsize] at hnext ⊢
      obtain ⟨hrun, hend⟩ := ih hw' (hsize.symm ▸ hscope : _ < _) hnext
      exact ⟨.print hrun, hend⟩
  | @node _ place n i next w w₁ flow r _ _ ihn ih =>
    cases hp with
    | node _ _ hnext =>
      obtain ⟨hrunn, hw₁, hle, hflow⟩ := ihn hw hscope (rule_grounded hm n hscope)
      obtain ⟨hrun, hend⟩ := ih hw₁ (Nat.lt_of_lt_of_le hscope hle) (hnext _ flow hle hflow)
      exact ⟨.node hrunn hrun, hend.mono hle⟩
  | @nodeFails _ place n i next w w₁ e _ ihn =>
    cases hp with
    | node _ _ hnext =>
      obtain ⟨hrunn, hw₁, hle⟩ := ihn hw hscope (rule_grounded hm n hscope)
      exact ⟨.nodeFails hrunn, hw₁, hle⟩
  | @call _ place c this args next w w₁ flow r hd _ _ ihn ih =>
    cases hp with
    | call _ hc ht ha hnext =>
      obtain ⟨hentered, hlatest⟩ := grounded_entered hw hc ht ha
      obtain ⟨hrunn, hw₁, hle₁, hflow⟩ := ihn hentered hlatest (rule_grounded hm c.body hlatest)
      obtain ⟨hleft, hle⟩ := grounded_left hw₁ hle₁
      rw [← size_leave] at hflow
      obtain ⟨hrun, hend⟩ := ih hleft (Nat.lt_of_lt_of_le hscope hle) (hnext _ flow.result hle hflow.result)
      exact ⟨.call hd hc hrunn hrun, hend.mono hle⟩
  | @callFails _ place c this args next w w₁ e hd _ ihn =>
    cases hp with
    | call _ hc ht ha hnext =>
      obtain ⟨hentered, hlatest⟩ := grounded_entered hw hc ht ha
      obtain ⟨hrunn, hw₁, hle₁⟩ := ihn hentered hlatest (rule_grounded hm c.body hlatest)
      exact ⟨.callFails hd hc hrunn, grounded_left hw₁ hle₁⟩
  | overflow hd => exact ⟨.overflow hd, hw, Nat.le_refl _⟩

end

/-! ## Sessions -/

namespace Session

/-- The sessions that steps of any kind lead to, if the closures in values from outside captured
    scopes that existed at the time. -/
inductive Attained : Session → Prop where
  | new {m : Machine} {globals : Table Value} (seedConsole : Bool) :
      m.host.Honest → (∀ g ∈ globals, g.2.Below 1) → Attained (new m seedConsole globals)
  | define {s : Session} (name : String) {v : Value} :
      Attained s → v.Below s.store.scopes.size → Attained (s.define name v)
  | evaluate {s : Session} (n : Node) {scope : ScopeId} :
      Attained s → s.store.scopes.Has scope → Attained (s.perform (s.machine.evaluate n scope)).2
  | call {s : Session} {f this : Value} {args : List Value} :
      Attained s → f.Below s.store.scopes.size → this.Below s.store.scopes.size → AllBelow s.store.scopes.size args →
      Attained (s.call f this args).2

/-- A step stays in bounds, leaves a grounded store, and what it gives is in `Q` for the scopes there
    are then. -/
structure InBounds {α : Type} (s : Session) (p : Plan α) (a : Action Store α) (Q : Nat → α → Prop) : Prop where
  run : RunsInBounds s.machine p s.store (a s.store)
  store : (s.perform a).2.store.Grounded
  result : ∀ v, (s.perform a).1 = .ok v → Q (s.perform a).2.store.scopes.size v

theorem inBounds_of_run {α : Type} {s : Session} {p : Plan α} {a : Action Store α} {Q : Nat → α → Prop} {k : Nat}
    (h : RunsInBounds s.machine p s.store (a s.store) ∧ Ending.Grounded k Q (a s.store)) : s.InBounds p a Q := by
  obtain ⟨hrun, hend⟩ := h
  cases hr : a s.store with
  | ok v w =>
    have hperform : s.perform a = (.ok v, { s with store := w }) := by simp only [perform, hr]
    rw [hr] at hend
    refine ⟨hrun, ?_, ?_⟩ <;> rw [hperform]
    · exact hend.1
    · rintro _ ⟨⟩
      exact hend.2.2
  | error e w =>
    have hperform : s.perform a = (.error e, { s with store := w }) := by simp only [perform, hr]
    rw [hr] at hend
    refine ⟨hrun, ?_, ?_⟩ <;> rw [hperform]
    · exact hend.1
    · exact nofun

/-- A session with an honest host and a grounded store. -/
structure Grounded (s : Session) : Prop where
  host : s.machine.host.Honest
  store : s.store.Grounded

namespace Grounded

variable {s : Session}

theorem define (h : s.Grounded) (name : String) {v : Value} (hv : v.Below s.store.scopes.size) :
    (s.define name v).Grounded :=
  ⟨h.host, h.store.bind hv .global name⟩

theorem new {m : Machine} (hm : m.host.Honest) (seedConsole : Bool) {globals : Table Value}
    (hg : ∀ g ∈ globals, g.2.Below 1) : (Session.new m seedConsole globals).Grounded := by
  have hstart : Grounded ⟨m, Store.new⟩ := ⟨hm, Scopes.new_rooted, store_new_binds _⟩
  refine (new_of_define (P := fun s => s.Grounded ∧ s.store.scopes.size = 1) (Q := Value.Below 1) ⟨hstart, rfl⟩ ?_
    (Value.only_of_closures_nil rfl) seedConsole hg).1
  rintro s name v ⟨hs, hsize⟩ hv
  refine ⟨hs.define name (hsize ▸ hv), ?_⟩
  simpa [Session.define] using hsize

theorem evaluate (h : s.Grounded) (n : Node) {scope : ScopeId} (hscope : s.store.scopes.Has scope) :
    s.InBounds (Plan.rule s.machine n scope) (s.machine.evaluate n scope) Flow.Below :=
  inBounds_of_run ((runs_eval _ n scope s.store rfl).inBounds h.host h.store hscope
    (Plan.rule_grounded h.host n hscope))

theorem call (h : s.Grounded) {f this : Value} {args : List Value} (hf : f.Below s.store.scopes.size)
    (ht : this.Below s.store.scopes.size) (ha : AllBelow s.store.scopes.size args) :
    s.InBounds (Plan.callValue s.machine f this args) (s.machine.call f this args) Value.Below :=
  inBounds_of_run ((runs_call f this args s.store).inBounds h.host h.store h.store.rooted.global
    (Plan.grounded_callValue h.host hf ht ha))

end Grounded

theorem Attained.grounded {s : Session} (h : s.Attained) : s.Grounded := by
  induction h with
  | new seedConsole hm hg => exact .new hm seedConsole hg
  | define name _ hv ih => exact ih.define name hv
  | evaluate n _ hscope ih => exact ⟨by simpa using ih.host, (ih.evaluate n hscope).store⟩
  | call _ hf ht ha ih => exact ⟨by simpa [Session.call] using ih.host, (ih.call hf ht ha).store⟩

/-- In every session the scopes are rooted, every bound closure captured a scope that exists, every
    search ends, and whatever is evaluated next, in whatever scope that exists, or called stays in bounds and gives
    only closures that captured existing scopes. -/
theorem attained_inBounds {s : Session} (h : s.Attained) :
    s.store.scopes.Rooted ∧ s.store.Binds (Closure.Below s.store.scopes.size) ∧
      (∀ i name, s.store.scopes.Has i → s.store.scopes.Search name i (s.store.scopes.lookup i name)) ∧
      (∀ n scope, s.store.scopes.Has scope →
        s.InBounds (Plan.rule s.machine n scope) (s.machine.evaluate n scope) Flow.Below) ∧
      ∀ f this args, f.Below s.store.scopes.size → this.Below s.store.scopes.size → AllBelow s.store.scopes.size args →
        s.InBounds (Plan.callValue s.machine f this args) (s.machine.call f this args) Value.Below := by
  have hs := h.grounded
  refine ⟨hs.store.rooted, hs.store.captured, fun i name hi => hs.store.rooted.search hi name,
    fun n scope hscope => hs.evaluate n hscope, ?_⟩
  exact fun f this args hf ht ha => hs.call hf ht ha

/-- A closure in an array outlives the call in whose scope it was made. Called through the array, in that scope, it
    runs in a scope of its own inside that one, and in there a further call fails. -/
theorem attained_inBounds_escaped_closure :
    let body (n : Node) : Node := .block .none [n]
    let closure (n : Node) (i : Nat) : Closure := ⟨.none, .ident .none "f", [], body n, ⟨i⟩⟩
    let self : Node := .returning .none (some (.this .none))
    let fails : Node := .call .none (.ident .none "missing") []
    let kept : Value := .array [.function (closure self 1)]
    let s₁ := (new ⟨.default, Console.host, false⟩ true []).evaluate (.function .none (.ident .none "f") [] (body self))
    let s₂ := s₁.2.call (.function (closure self 0)) .null []
    let s₃ := s₂.2.define "kept" kept
    let through : Node := .call .none (.member .none (.ident .none "kept") (.string .none "0") true) []
    let s₄ := s₃.perform (s₃.machine.evaluate through ⟨1⟩)
    let s₅ := s₄.2.call (.function (closure fails 2)) .null []
    s₅.2.Attained ∧ s₅.1.isOk = false ∧
      ([0, 1, 2, 3].map fun i => s₅.2.store.scopes.parent ⟨i⟩) = [none, some ⟨0⟩, some ⟨1⟩, some ⟨2⟩] ∧
      s₅.2.store.scopes.Search "kept" ⟨3⟩ (s₅.2.store.scopes.lookup ⟨3⟩ "kept") := by
  intro body closure self fails kept s₁ s₂ s₃ through s₄ s₅
  have hsize₁ : s₁.2.store.scopes.size = 1 := by
    simp only [body, self, s₁]
    decide +kernel
  have hsize₂ : s₂.2.store.scopes.size = 2 := by
    simp only [body, closure, self, s₁, s₂]
    decide +kernel
  have hsize₄ : s₄.2.store.scopes.size = 3 := by
    simp only [body, closure, self, kept, through, s₁, s₂, s₃, s₄]
    decide +kernel
  have hend : (s₅.1.isOk, s₅.2.store.scopes.size, [0, 1, 2, 3].map fun i => s₅.2.store.scopes.parent ⟨i⟩) =
      (false, 4, [none, some ⟨0⟩, some ⟨1⟩, some ⟨2⟩]) := by
    simp only [body, closure, self, fails, kept, through, s₁, s₂, s₃, s₄, s₅]
    decide +kernel
  simp only [Prod.mk.injEq] at hend
  obtain ⟨hfails, hsize, hparents⟩ := hend
  have hfunction (n : Node) {i k : Nat} (h : i < k) : (Value.function (closure n i)).Below k :=
    Value.only_function.mpr h
  have hkept : kept.Below 2 := Value.only_array (List.forall_mem_singleton.mpr (hfunction self (by decide)))
  have h₁ : s₁.2.Attained := .evaluate _ (.new true Console.host_honest (List.forall_mem_nil _)) Nat.zero_lt_one
  have h₂ : s₂.2.Attained := .call h₁ (hfunction self (by omega)) (Value.only_of_closures_nil rfl) nofun
  have hsize₃ : s₃.store.scopes.size = 2 := by simpa [s₃, define] using hsize₂
  have h₄ : s₄.2.Attained := .evaluate _ (.define "kept" h₂ (hsize₂ ▸ hkept)) (Nat.lt_of_lt_of_eq Nat.one_lt_two hsize₃.symm)
  have h₅ : s₅.2.Attained := .call h₄ (hfunction fails (by omega)) (Value.only_of_closures_nil rfl) nofun
  have hlast : s₅.2.store.scopes.Has ⟨3⟩ := Nat.lt_of_lt_of_eq (by decide) hsize.symm
  exact ⟨h₅, hfails, hparents, (attained_inBounds h₅).2.2.1 ⟨3⟩ "kept" hlast⟩

end Session

end Treewalk
