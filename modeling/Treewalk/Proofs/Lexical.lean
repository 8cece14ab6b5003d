/-
  Treewalk.Proofs.Lexical — a call sees what its closure captured, and nothing of its callers.

  `Closed R s`: from the scopes in `R` no lookup and no captured scope leads out of `R`. Two stores
  are `Alike` on `R` if they have the same scopes, which bind the same in `R`; elsewhere they may bind
  what they like.

  Proved, for every closure that captured a scope in `R` (`call_lexical`): in stores alike on `R` a
  call gives the same value or the same error, prints the same, and leaves stores alike on `R` and on
  every scope that was made since, provided that there is a number for each of these. By induction on the run
  in the one store, the run in the other is `InStep` with it: both handle only `R` and new scopes.

  `call_nonlexical_when_full`: among as many scopes as there are numbers, a call begins in an old scope and sees what
  that one binds.
-/

import Treewalk.Proofs.Grounding
import Treewalk.Proofs.Numbering
import Treewalk.Proofs.Termination

namespace Treewalk

open Plan

structure Closed (R : ScopeId → Prop) (s : Store) : Prop where
  parents : ∀ i p, R i → s.scopes.parent i = some p → R p
  captured : ∀ i name v, R i → s.scopes.getLocal i name = some v → v.Only (R ·.scope)

structure Alike (R : ScopeId → Prop) (s₁ s₂ : Store) : Prop where
  depth : s₁.depth = s₂.depth
  size : s₁.scopes.size = s₂.scopes.size
  parents : ∀ i, s₁.scopes.parent i = s₂.scopes.parent i
  bindings : ∀ i, R i → ∀ name, s₁.scopes.getLocal i name = s₂.scopes.getLocal i name

/-- From `s₁` to `t₁` the same was printed as from `s₂` to `t₂`. -/
structure Echoes (s₁ s₂ t₁ t₂ : Store) : Prop where
  out : ∃ text, t₁.out = s₁.out ++ text ∧ t₂.out = s₂.out ++ text
  err : ∃ text, t₁.err = s₁.err ++ text ∧ t₂.err = s₂.err ++ text

/-! ## Lookups -/

section
variable {R : ScopeId → Prop} {s s₁ s₂ : Store}

/-- By induction along the parents: all of them are in `R`. -/
theorem Alike.lookup (h : Alike R s₁ s₂) (hR : Closed R s₁) {i : ScopeId} (hi : R i) (name : String) :
    s₁.scopes.lookup i name = s₂.scopes.lookup i name := by
  fun_induction Scopes.lookup s₁.scopes i name with
  | case1 i v hv =>
    rw [Scopes.lookup, ← h.bindings i hi, hv]
  | case2 i hv hp =>
    rw [Scopes.lookup, ← h.bindings i hi, hv, ← h.parents i, hp]
  | case3 i hv p hp hlt ih =>
    rw [ih (hR.parents i p hi hp)]
    conv => rhs; rw [Scopes.lookup, ← h.bindings i hi, hv, ← h.parents i, hp]
    simp [hlt]
  | case4 i hv p hp hlt =>
    rw [Scopes.lookup, ← h.bindings i hi, hv, ← h.parents i, hp]
    simp [hlt]

theorem Closed.lookup (hR : Closed R s) {i : ScopeId} (hi : R i) {name : String} {v : Value}
    (h : s.scopes.lookup i name = some v) : v.Only (R ·.scope) := by
  fun_induction Scopes.lookup s.scopes i name with
  | case1 i u hu =>
    cases h
    exact hR.captured i name _ hi hu
  | case2 => cases h
  | case3 i _ p hp _ ih => exact ih (hR.parents i p hi hp) h
  | case4 => cases h

/-! ## Changes -/

theorem Closed.bind (hR : Closed R s) {v : Value} (hv : v.Only (R ·.scope)) (scope : ScopeId)
    (name : String) : Closed R (s.apply (.bind scope name v)) := by
  constructor
  · intro i p hi hp
    simp only [Store.apply, Scopes.parent_set] at hp
    exact hR.parents i p hi hp
  · intro i other u hi hu
    simp only [Store.apply, Scopes.getLocal_set] at hu
    split at hu
    · cases hu
      exact hv
    · exact hR.captured i other u hi hu

theorem Closed.enter (hR : Closed R s) {c : Closure} {this : Value} {args : List Value} (hc : R c.scope)
    (ht : this.Only (R ·.scope)) (ha : ∀ a ∈ args, a.Only (R ·.scope)) :
    Closed R (s.apply (.enter c this args)) := by
  constructor
  · intro i p hi hp
    rw [Store.parent_enter] at hp
    split at hp
    · cases hp
      exact hc
    · exact hR.parents i p hi hp
  · intro i name u hi hu
    rw [Store.getLocal_enter] at hu
    split at hu
    · rcases Option.or_eq_some_iff.mp hu with hu | ⟨-, hu⟩
      · exact Closure.locals_only ht ha hu
      · exact hR.captured i name u hi hu
    · exact hR.captured i name u hi hu

theorem Closed.print (hR : Closed R s) (lines : List Line) : Closed R (s.apply (.print lines)) := by
  constructor <;> rw [Store.apply_print_scopes]
  · exact hR.parents
  · exact hR.captured

theorem Alike.bind (h : Alike R s₁ s₂) (scope : ScopeId) (name : String) (v : Value) :
    Alike R (s₁.apply (.bind scope name v)) (s₂.apply (.bind scope name v)) := by
  refine ⟨h.depth, ?_, ?_, ?_⟩
  · simpa [Store.apply] using h.size
  · intro i
    simpa [Store.apply] using h.parents i
  · intro i hi other
    simp only [Store.apply, Scopes.getLocal_set, h.size, h.bindings i hi other]

theorem Alike.enter (h : Alike R s₁ s₂) (c : Closure) (this : Value) (args : List Value) :
    Alike R (s₁.apply (.enter c this args)) (s₂.apply (.enter c this args)) := by
  refine ⟨?_, ?_, ?_, ?_⟩
  · simp only [Store.depth_enter, h.depth]
  · simp only [Store.size_enter, h.size]
  · intro i
    simp only [Store.parent_enter, h.size, h.parents i]
  · intro i hi name
    simp only [Store.getLocal_enter, h.size, h.bindings i hi name]

theorem Alike.leave (h : Alike R s₁ s₂) : Alike R (s₁.apply .leave) (s₂.apply .leave) :=
  ⟨congrArg (· - 1) h.depth, h.size, h.parents, h.bindings⟩

theorem Alike.print (h : Alike R s₁ s₂) (lines : List Line) :
    Alike R (s₁.apply (.print lines)) (s₂.apply (.print lines)) := by
  refine ⟨?_, ?_, ?_, ?_⟩
  · rw [Store.apply_print_depth, Store.apply_print_depth]
    exact h.depth
  all_goals rw [Store.apply_print_scopes, Store.apply_print_scopes]
  · exact h.size
  · exact h.parents
  · exact h.bindings

end

theorem Echoes.refl (s₁ s₂ : Store) : Echoes s₁ s₂ s₁ s₂ := ⟨⟨"", by simp⟩, ⟨"", by simp⟩⟩

theorem Echoes.print_line {s₁ s₂ t₁ t₂ : Store} (h : Echoes s₁ s₂ t₁ t₂) (line : Line) :
    Echoes s₁ s₂ (t₁.print line) (t₂.print line) := by
  obtain ⟨⟨out, ho₁, ho₂⟩, ⟨err, he₁, he₂⟩⟩ := h
  unfold Store.print
  cases line.stream with
  | out =>
    exact ⟨⟨out ++ line.text ++ "\n", by simp [ho₁, String.append_assoc], by simp [ho₂, String.append_assoc]⟩,
      ⟨err, he₁, he₂⟩⟩
  | err =>
    exact ⟨⟨out, ho₁, ho₂⟩,
      ⟨err ++ line.text ++ "\n", by simp [he₁, String.append_assoc], by simp [he₂, String.append_assoc]⟩⟩

theorem Echoes.print {s₁ s₂ t₁ t₂ : Store} (h : Echoes s₁ s₂ t₁ t₂) (lines : List Line) :
    Echoes s₁ s₂ (t₁.apply (.print lines)) (t₂.apply (.print lines)) := by
  induction lines generalizing t₁ t₂ with
  | nil => exact h
  | cons line lines ih =>
    rw [Store.apply_print_cons, Store.apply_print_cons]
    exact ih (h.print_line line)

/-! ## Runs in step -/

section
variable (R : ScopeId → Prop) (s₁ s₂ : Store)

/-- The scopes of `R` and those made since `s`. -/
def orNew (s : Store) (i : ScopeId) : Prop := R i ∨ s.scopes.size ≤ i.index

/-- What a call reaches are `R` and the scopes made since it began. -/
def lexicalReach (s : Store) : Reach := ⟨fun _ => orNew R s, fun _ hi => hi⟩

/-- From `s₁` and `s₂` on, what happened was the same as far as a call can see. -/
structure InStep (t₁ t₂ : Store) : Prop where
  alike : Alike (orNew R s₁) t₁ t₂
  closed : Closed (orNew R s₁) t₁
  grown : s₁.scopes.size ≤ t₁.scopes.size
  echo : Echoes s₁ s₂ t₁ t₂

variable {R s₁ s₂}

theorem Alike.orNew (h : Alike R s₁ s₂) : Alike (orNew R s₁) s₁ s₂ := by
  refine ⟨h.depth, h.size, h.parents, fun i hi name => ?_⟩
  rcases hi with hi | hi
  · exact h.bindings i hi name
  · rw [Scopes.getLocal_of_size_le hi, Scopes.getLocal_of_size_le (h.size ▸ hi)]

theorem Closed.orNew (hR : Closed R s₁) : Closed (orNew R s₁) s₁ := by
  constructor
  · intro i p hi hp
    rcases hi with hi | hi
    · exact .inl (hR.parents i p hi hp)
    · rw [Scopes.parent_of_size_le hi] at hp
      cases hp
  · intro i name v hi hv
    rcases hi with hi | hi
    · exact (hR.captured i name v hi hv).mono fun _ => .inl
    · rw [Scopes.getLocal_of_size_le hi] at hv
      cases hv

namespace InStep

variable {t₁ t₂ : Store}

theorem get (h : InStep R s₁ s₂ t₁ t₂) {scope : ScopeId} (hs : orNew R s₁ scope) (name : String) :
    t₁.scopes.get scope name = t₂.scopes.get scope name ∧ (t₁.scopes.get scope name).Only (orNew R s₁ ·.scope) := by
  refine ⟨congrArg (·.getD .undefined) (h.alike.lookup h.closed hs name), ?_⟩
  unfold Scopes.get
  cases hv : t₁.scopes.lookup scope name with
  | none => exact Value.only_of_closures_nil rfl
  | some v => exact h.closed.lookup hs hv

theorem takes (h : InStep R s₁ s₂ t₁ t₂) {scope : ScopeId} (hs : orNew R s₁ scope) (r : Redeclaration) (name : String) :
    r.takes t₁.scopes scope name = r.takes t₂.scopes scope name :=
  r.takes_congr (h.alike.bindings scope hs name)

theorem bind (h : InStep R s₁ s₂ t₁ t₂) {v : Value} (hv : v.Only (orNew R s₁ ·.scope)) (scope : ScopeId) (name : String) :
    InStep R s₁ s₂ (t₁.apply (.bind scope name v)) (t₂.apply (.bind scope name v)) :=
  ⟨h.alike.bind _ _ _, h.closed.bind hv _ _, Nat.le_trans h.grown (Store.size_le_apply _ _), ⟨h.echo.out, h.echo.err⟩⟩

theorem print (h : InStep R s₁ s₂ t₁ t₂) (lines : List Line) :
    InStep R s₁ s₂ (t₁.apply (.print lines)) (t₂.apply (.print lines)) :=
  ⟨h.alike.print _, h.closed.print _, Nat.le_trans h.grown (Store.size_le_apply _ _), h.echo.print _⟩

theorem enter (h : InStep R s₁ s₂ t₁ t₂) {c : Closure} {this : Value} {args : List Value} (hc : orNew R s₁ c.scope)
    (ht : this.Only (orNew R s₁ ·.scope)) (ha : ∀ a ∈ args, a.Only (orNew R s₁ ·.scope)) :
    InStep R s₁ s₂ (t₁.apply (.enter c this args)) (t₂.apply (.enter c this args)) :=
  ⟨h.alike.enter _ _ _, h.closed.enter hc ht ha, Nat.le_trans h.grown (Store.size_le_apply _ _),
    ⟨h.echo.out, h.echo.err⟩⟩

theorem leave (h : InStep R s₁ s₂ t₁ t₂) : InStep R s₁ s₂ (t₁.apply .leave) (t₂.apply .leave) :=
  ⟨h.alike.leave, ⟨h.closed.parents, h.closed.captured⟩, h.grown, ⟨h.echo.out, h.echo.err⟩⟩

/-- Where a number is left for its scope, a call begins in a new scope, the same in both stores. -/
theorem latest_enter (h : InStep R s₁ s₂ t₁ t₂) (c : Closure) (this : Value) (args : List Value)
    (hsize : (t₁.apply (.enter c this args)).scopes.size ≤ ScopeId.maxIndex + 1) :
    (t₁.apply (.enter c this args)).scopes.latest = (t₂.apply (.enter c this args)).scopes.latest ∧
      orNew R s₁ (t₁.apply (.enter c this args)).scopes.latest := by
  rw [Store.size_enter] at hsize
  constructor
  · rw [Store.latest_enter, Store.latest_enter, h.alike.size]
  · rw [t₁.latest_enter_fresh c this args (Nat.le_of_succ_le_succ hsize)]
    exact .inr h.grown

end InStep

variable {α : Type} {m : Machine}

/-- The plan run from `t₂` ends as in `r` and in step with it, a value being in `Q`. -/
def Follows (R : ScopeId → Prop) (s₁ s₂ : Store) (m : Machine) (p : Plan α) (t₂ : Store) (Q : Nat → α → Prop) :
    Ending Store α → Prop
  | .ok a t₁ => ∃ t₂', Runs m p t₂ (.ok a t₂') ∧ InStep R s₁ s₂ t₁ t₂' ∧ Q t₁.scopes.size a
  | .error e t₁ => ∃ t₂', Runs m p t₂ (.error e t₂') ∧ InStep R s₁ s₂ t₁ t₂'

theorem Follows.mono {p q : Plan α} {t₂ t₂' : Store} {Q : Nat → α → Prop} {r : Ending Store α}
    (h : Follows R s₁ s₂ m p t₂ Q r) (hruns : ∀ r', Runs m p t₂ r' → Runs m q t₂' r') : Follows R s₁ s₂ m q t₂' Q r := by
  cases r with
  | ok a t₁ =>
    obtain ⟨w, hrun, h⟩ := h
    exact ⟨w, hruns _ hrun, h⟩
  | error e t₁ =>
    obtain ⟨w, hrun, h⟩ := h
    exact ⟨w, hruns _ hrun, h⟩

/-- By induction on the run in the first store. All its scopes have numbers of their own, so a call begins in a new
    scope, which is within reach. -/
theorem Runs.follows (hm : m.host.Honest) {p : Plan α} {t₁ : Store} {r : Ending Store α} (h : Runs m p t₁ r)
    {t₂ : Store} {scope : ScopeId} {Q : Nat → α → Prop} (hs : InStep R s₁ s₂ t₁ t₂) (hscope : orNew R s₁ scope)
    (hp : p.Grounded (lexicalReach R s₁) scope Q t₁.scopes.size) (hsize : r.world.scopes.size ≤ ScopeId.maxIndex + 1) :
    Follows R s₁ s₂ m p t₂ Q r := by
  induction h generalizing t₂ scope with
  | done a w =>
    cases hp with
    | done ha => exact ⟨t₂, .done a t₂, hs, ha⟩
  | fail e w => exact ⟨t₂, .fail e t₂, hs⟩
  | look _ ih =>
    cases hp with
    | get name next hnext =>
      obtain ⟨hget, hinside⟩ := hs.get hscope name
      refine (ih hs hscope (hnext _ hinside) hsize).mono fun r' hrun => .look ?_
      show Runs m (next (t₂.scopes.get scope name)) t₂ r'
      rw [← hget]
      exact hrun
    | check d name next hnext =>
      refine (ih hs hscope (hnext _) hsize).mono fun r' hrun => .look ?_
      show Runs m (next (d.takes t₂.scopes scope name)) t₂ r'
      rw [← hs.takes hscope d name]
      exact hrun
  | @declare _ i name value next w r _ ih =>
    cases hp with
    | declare _ hv hnext =>
      have hnext : next.Grounded (lexicalReach R s₁) i Q (w.apply (.bind i name value)).scopes.size := by
        simpa [Store.apply] using hnext
      exact (ih (hs.bind hv i name) hscope hnext hsize).mono fun r' hrun => .declare hrun
  | @print _ lines next w r _ ih =>
    cases hp with
    | print _ hnext =>
      have hnext : next.Grounded (lexicalReach R s₁) scope Q (w.apply (.print lines)).scopes.size := by
        rw [Store.apply_print_scopes]
        exact hnext
      exact (ih (hs.print lines) hscope hnext hsize).mono fun r' hrun => .print hrun
  | @node _ place n i next w w₁ flow r hn hr ihn ih =>
    cases hp with
    | node _ _ hnext =>
      obtain ⟨w₂, hn₂, hs₁, hflow⟩ := ihn hs hscope (Plan.rule_grounded hm n hscope) (Nat.le_trans hr.size_le hsize)
      exact (ih hs₁ hscope (hnext _ flow hn.size_le hflow) hsize).mono fun r' hrun => .node hn₂ hrun
  | @nodeFails _ place n i next w w₁ e hn ihn =>
    cases hp with
    | node _ _ hnext =>
      obtain ⟨w₂, hn₂, hs₁⟩ := ihn hs hscope (Plan.rule_grounded hm n hscope) hsize
      exact ⟨w₂, .nodeFails hn₂, hs₁⟩
  | @call _ place c this args next w w₁ flow r hd hn hr ihn ih =>
    cases hp with
    | call _ hc ht ha hnext =>
      have hsize₁ : w₁.scopes.size ≤ ScopeId.maxIndex + 1 := Nat.le_trans hr.size_le hsize
      obtain ⟨hlatest, hnew⟩ := hs.latest_enter c this args (Nat.le_trans hn.size_le hsize₁)
      obtain ⟨w₂, hn₂, hs₁, hflow⟩ := ihn (hs.enter hc ht ha) hnew (Plan.rule_grounded hm c.body hnew) hsize₁
      rw [show body m w c this args = body m t₂ c this args from congrArg (rule m c.body) hlatest] at hn₂
      have hd₂ : t₂.depth < m.options.maxCallDepth := hs.alike.depth ▸ hd
      have hle : w.scopes.size ≤ w₁.scopes.size := Nat.le_trans (Store.size_le_apply _ _) hn.size_le
      exact (ih hs₁.leave hscope (hnext _ flow.result hle (Value.Only.result hflow)) hsize).mono fun r' hrun =>
        .call hd₂ hn₂ hrun
  | @callFails _ place c this args next w w₁ e hd hn ihn =>
    cases hp with
    | call _ hc ht ha hnext =>
      obtain ⟨hlatest, hnew⟩ := hs.latest_enter c this args (Nat.le_trans hn.size_le hsize)
      obtain ⟨w₂, hn₂, hs₁⟩ := ihn (hs.enter hc ht ha) hnew (Plan.rule_grounded hm c.body hnew) hsize
      rw [show body m w c this args = body m t₂ c this args from congrArg (rule m c.body) hlatest] at hn₂
      have hd₂ : t₂.depth < m.options.maxCallDepth := hs.alike.depth ▸ hd
      exact ⟨w₂.apply .leave, .callFails hd₂ hn₂, hs₁.leave⟩
  | overflow ho =>
    rw [show (World.store _ : Store).depth = _ from hs.alike.depth] at ho
    exact ⟨t₂, .overflow ho, hs⟩

end

/-- Callers cannot influence what they call but through the scopes that it captured, as long as there is a number for
    every scope that is made. -/
theorem call_lexical {m : Machine} (hh : m.host.Honest) {R : ScopeId → Prop} {s₁ s₂ : Store} (halike : Alike R s₁ s₂)
    (hclosed : Closed R s₁) {c : Closure} {this : Value} {args : List Value} (hc : R c.scope)
    (ht : this.Only (R ·.scope)) (ha : ∀ a ∈ args, a.Only (R ·.scope)) :
    let run₁ := (⟨m, s₁⟩ : Session).call (.function c) this args
    let run₂ := (⟨m, s₂⟩ : Session).call (.function c) this args
    run₁.2.store.scopes.size ≤ ScopeId.maxIndex + 1 →
      run₁.1 = run₂.1 ∧ Echoes s₁ s₂ run₁.2.store run₂.2.store ∧
        Alike (fun i => R i ∨ s₁.scopes.size ≤ i.index) run₁.2.store run₂.2.store := by
  intro run₁ run₂ hsize
  have hs : InStep R s₁ s₂ s₁ s₂ := ⟨halike.orNew, hclosed.orNew, Nat.le_refl _, Echoes.refl s₁ s₂⟩
  have hf : (Value.function c).Only (orNew R s₁ ·.scope) := Value.only_function.mpr (.inl hc)
  have hplan : (callValue m (.function c) this args).Grounded (lexicalReach R s₁) c.scope
      (Value.Inside (lexicalReach R s₁)) s₁.scopes.size :=
    grounded_callValue hh hf (ht.mono fun _ => .inl) fun a hm => (ha a hm).mono fun _ => .inl
  have hruns₁ := runs_call (m := m) (.function c) this args s₁
  have hruns₂ := runs_call (m := m) (.function c) this args s₂
  have hfollows := hruns₁.follows hh hs (.inl hc) hplan
  simp only [run₁, run₂, Session.call, Session.perform] at hsize ⊢
  cases h₁ : m.call (.function c) this args s₁ with
  | ok v t₁ =>
    rw [h₁] at hfollows hsize
    obtain ⟨t₂, hrun, hend, -⟩ := hfollows hsize
    rw [← hrun.unique hruns₂]
    exact ⟨rfl, hend.echo, hend.alike⟩
  | error e t₁ =>
    rw [h₁] at hfollows hsize
    obtain ⟨t₂, hrun, hend⟩ := hfollows hsize
    rw [← hrun.unique hruns₂]
    exact ⟨rfl, hend.echo, hend.alike⟩

/-- A closure over the global scope reads `x` there, whatever a caller's own scope binds `x` to. -/
theorem call_lexical_shadowed :
    let base := (Store.new.apply (.bind .global "x" (.string "outer"))).apply
      (.enter ⟨.none, .ident .none "g", [], .empty .none, .global⟩ .null [])
    let s₁ := base.apply (.bind ⟨1⟩ "x" (.string "left"))
    let s₂ := base.apply (.bind ⟨1⟩ "x" (.string "right"))
    let body := Node.returning .none (some (.binary .none .add (.ident .none "x") (.string .none "!")))
    let c : Closure := ⟨.none, .ident .none "f", [], body, .global⟩
    let m : Machine := ⟨.default, Console.host, false⟩
    s₁.scopes.getLocal ⟨1⟩ "x" = some (.string "left") ∧ s₂.scopes.getLocal ⟨1⟩ "x" = some (.string "right") ∧
      ((⟨m, s₁⟩ : Session).call (.function c) .null []).1 = ((⟨m, s₂⟩ : Session).call (.function c) .null []).1 := by
  intro base s₁ s₂ body c m
  have halike : Alike (· = .global) s₁ s₂ := by
    refine ⟨rfl, rfl, fun i => by simp [s₁, s₂, Store.apply], ?_⟩
    rintro i rfl name
    simp [s₁, s₂, Store.apply, Scopes.getLocal_set, ScopeId.global]
  have hclosed : Closed (· = .global) s₁ := by
    constructor
    · rintro i p rfl hp
      cases hp
    · rintro i name v rfl hv
      have hv : Table.get? [("x", Value.string "outer")] name = some v := hv
      cases List.mem_singleton.mp (Table.mem_of_get? hv)
      exact Value.only_of_closures_nil rfl
  have hsize : ((⟨m, s₁⟩ : Session).call (.function c) .null []).2.store.scopes.size = 3 := by decide +kernel
  refine ⟨rfl, rfl, ?_⟩
  exact (@call_lexical m Console.host_honest _ s₁ s₂ halike hclosed c .null [] rfl
    (Value.only_of_closures_nil rfl) (by simp) (by rw [hsize]; decide)).1

section
variable {s : Store} (hsize : s.scopes.size = ScopeId.maxIndex + 1) (hdepth : s.depth = 0)
include hsize hdepth

/-- A call that begins in a scope which binds `x` already finds it there, whatever scope its closure captured. -/
theorem call_when_full {side : String} (hx : s.scopes.getLocal .last "x" = some (.string side)) :
    let sum := Node.binary .none .add (.ident .none "x") (.string .none "!")
    let c : Closure := ⟨.none, .ident .none "f", [], .returning .none (some sum), .global⟩
    ((⟨⟨.default, Console.host, false⟩, s⟩ : Session).call (.function c) .null []).1 = .ok (.string (side ++ "!")) := by
  intro sum c
  let m : Machine := ⟨.default, Console.host, false⟩
  let t := s.apply (.enter c .null [])
  have hnew : ScopeId.ofIndex s.scopes.size = .last := by rw [hsize, ScopeId.ofIndex_of_ge (Nat.le_succ _)]
  have hlatest : t.scopes.latest = .last := (s.latest_enter c .null []).trans hnew
  have hx : t.scopes.get .last "x" = .string side := by
    refine Scopes.get_of_getLocal ?_
    rw [Store.getLocal_enter, if_pos hnew, hx]
    rfl
  have hsum : Runs m (rule m sum .last) t (.ok (.normal (.string (side ++ "!"))) t) := by
    refine .look (.node (.done (Flow.normal (.string "!")) t) ?_)
    show Runs m (located .none (ofExcept (BinaryOp.apply .add (t.scopes.get .last "x") (.string "!")) >>= fun v =>
      pure (Flow.normal v))) t _
    rw [hx]
    exact .done _ t
  have hbody : Runs m (body m s c .null []) t (.ok (.returned (.string (side ++ "!"))) t) := by
    show Runs m (rule m c.body t.scopes.latest) t _
    rw [hlatest]
    exact .node hsum (.done _ _)
  have hfree : s.depth < m.options.maxCallDepth := by
    rw [hdepth]
    decide
  have hrun : Runs m (callValue m (.function c) .null []) s (.ok (.string (side ++ "!")) (t.apply .leave)) :=
    .call hfree hbody (.done _ _)
  simp only [Session.call, Session.perform]
  rw [← hrun.unique (runs_call (.function c) .null [] s)]

theorem alike_when_full (hglobal : ∀ name, s.scopes.getLocal .global name = none)
    (hroot : s.scopes.parent .global = none) :
    let s₁ := s.apply (.bind .last "x" (.string "left"))
    let s₂ := s.apply (.bind .last "x" (.string "right"))
    let sum := Node.binary .none .add (.ident .none "x") (.string .none "!")
    let c : Closure := ⟨.none, .ident .none "f", [], .returning .none (some sum), .global⟩
    let m : Machine := ⟨.default, Console.host, false⟩
    Alike (· = .global) s₁ s₂ ∧ Closed (· = .global) s₁ ∧
      ((⟨m, s₁⟩ : Session).call (.function c) .null []).1 = .ok (.string "left!") ∧
      ((⟨m, s₂⟩ : Session).call (.function c) .null []).1 = .ok (.string "right!") := by
  intro s₁ s₂ sum c m
  have hset (v : Value) : (s.scopes.set .last "x" v).getLocal .last "x" = some v := by
    rw [Scopes.getLocal_set, if_pos ⟨rfl, by rw [hsize]; exact Nat.lt_succ_self _, rfl⟩]
  have hother (v : Value) (name : String) : (s.scopes.set .last "x" v).getLocal .global name = none := by
    rw [Scopes.getLocal_set, if_neg (by simp [ScopeId.last, ScopeId.global, ScopeId.maxIndex]), hglobal]
  refine ⟨⟨rfl, ?_, ?_, ?_⟩, ⟨?_, ?_⟩, ?_, ?_⟩
  · simp [s₁, s₂, Store.apply]
  · intro i
    simp [s₁, s₂, Store.apply]
  · intro i hi name
    rw [hi]
    exact (hother _ name).trans (hother _ name).symm
  · intro i p hi hp
    rw [hi] at hp
    cases hroot.symm.trans ((Scopes.parent_set _ _ _ _ _).symm.trans hp)
  · intro i name v hi hv
    rw [hi] at hv
    cases (hother _ name).symm.trans hv
  · rw [show "left!" = "left" ++ "!" by decide]
    exact call_when_full (s := s₁) ((Scopes.size_set _ _ _ _).trans hsize) hdepth (hset _)
  · rw [show "right!" = "right" ++ "!" by decide]
    exact call_when_full (s := s₂) ((Scopes.size_set _ _ _ _).trans hsize) hdepth (hset _)

end

/-- The same call, after so many calls of another function that there are as many scopes as numbers: it begins in the
    last of these scopes, and there it finds the `x` of another call. -/
theorem call_nonlexical_when_full :
    let idle : Closure := ⟨.none, .ident .none "g", [], .empty .none, .global⟩
    let base := Store.new.called idle ScopeId.maxIndex
    let s₁ := base.apply (.bind .last "x" (.string "left"))
    let s₂ := base.apply (.bind .last "x" (.string "right"))
    let sum := Node.binary .none .add (.ident .none "x") (.string .none "!")
    let c : Closure := ⟨.none, .ident .none "f", [], .returning .none (some sum), .global⟩
    let m : Machine := ⟨.default, Console.host, false⟩
    Alike (· = .global) s₁ s₂ ∧ Closed (· = .global) s₁ ∧
      ((⟨m, s₁⟩ : Session).call (.function c) .null []).1 = .ok (.string "left!") ∧
      ((⟨m, s₂⟩ : Session).call (.function c) .null []).1 = .ok (.string "right!") := by
  intro idle base
  have hone : (ScopeId.global).index < Store.new.scopes.size := Nat.one_pos
  refine alike_when_full ?_ ?_ (fun name => ?_) ?_
  · rw [Store.size_called]
    exact Nat.add_comm 1 _
  · rw [Store.depth_called]
    rfl
  · rw [Store.getLocal_called_global _ _ hone]
    rfl
  · rw [Store.parent_called _ _ hone]
    rfl

end Treewalk
