/-
  Treewalk.Proofs.Numbering — scopes and the numbers they are known by.

  There are `ScopeId.maxIndex + 1` numbers. As long as they last, a new scope has a number of its own. Every
  scope made later goes by the last number, which was given away before: a call that begins then binds
  its receiver and arguments in an old scope. `Shared` is that scope from then on.

  Proved:
  - `taken_of_ofIndex`: no other old scope is ever taken for a new one; so the scope of a call is new or
    it is shared (`latest_enter_new_or_shared`).
  - `size_called`, `getLocal_called`: calls without arguments, begun and ended again and again, make a scope each
    and bind nothing but `this` and parameters, these to undefined. So programs lead to a session with any number
    of scopes (`exists_crowded`).
-/

import Mathlib
import Treewalk.Proofs.Searching
import Treewalk.Proofs.Sessions

namespace Treewalk

open ScopeId (maxIndex)

namespace Scopes

/-- The scope is the last one that has a number, and others made after it go by the same number. -/
def Shared (s : Scopes) (i : ScopeId) : Prop := i = .last ∧ maxIndex + 1 < s.size

theorem Shared.mono {s t : Scopes} {i : ScopeId} (h : s.Shared i) (hst : s.size ≤ t.size) : t.Shared i :=
  ⟨h.1, Nat.lt_of_lt_of_le h.2 hst⟩

end Scopes

/-- If a new scope gets the number of an old one, this is the last number. -/
theorem taken_of_ofIndex {k : Nat} {i : ScopeId} (hi : i.index < k) (h : .ofIndex k = i) : i = .last ∧ maxIndex < k := by
  rcases Nat.lt_or_ge maxIndex k with hk | hk
  · rw [ScopeId.ofIndex_of_ge (Nat.le_of_lt hk)] at h
    exact ⟨h.symm, hk⟩
  · rw [ScopeId.ofIndex_of_le hk] at h
    subst h
    exact absurd hi (Nat.lt_irrefl k)

/-- What a scope binds itself is found there. -/
theorem Scopes.get_of_getLocal {s : Scopes} {i : ScopeId} {name : String} {v : Value}
    (h : s.getLocal i name = some v) : s.get i name = v := by
  rw [get, lookup, h]
  rfl

namespace Store

variable (s : Store) (c : Closure) (this : Value) (args : List Value)

/-- An old scope that a call begins in is shared. -/
theorem shared_of_enter {i : ScopeId} (hi : i.index < s.scopes.size) (h : .ofIndex s.scopes.size = i) :
    (s.apply (.enter c this args)).scopes.Shared i := by
  obtain ⟨hlast, hsize⟩ := taken_of_ofIndex hi h
  refine ⟨hlast, ?_⟩
  rw [size_enter]
  exact Nat.succ_lt_succ hsize

theorem latest_enter_new_or_shared : s.scopes.size ≤ (s.apply (.enter c this args)).scopes.latest.index ∨
    (s.apply (.enter c this args)).scopes.Shared (s.apply (.enter c this args)).scopes.latest := by
  rw [latest_enter]
  rcases Nat.lt_or_ge (ScopeId.ofIndex s.scopes.size).index s.scopes.size with h | h
  · exact .inr (s.shared_of_enter c this args h rfl)
  · exact .inl h

/-- As long as the numbers last, a call begins in a scope with a number of its own. -/
theorem latest_enter_fresh (h : s.scopes.size ≤ maxIndex) :
    (s.apply (.enter c this args)).scopes.latest = ⟨s.scopes.size⟩ := by
  rw [latest_enter, ScopeId.ofIndex_of_le h]

/-- Without parameters a call binds nothing but the receiver. -/
theorem getLocal_enter_bare {c : Closure} (hc : c.params = []) {name : String} (hname : name ≠ "this") (i : ScopeId) :
    (s.apply (.enter c this [])).scopes.getLocal i name = s.scopes.getLocal i name := by
  have hlocals : (c.locals this []).get? name = none := by
    simp [Closure.locals, Closure.bindLocals, hc, bindParams, Table.get?, Ne.symm hname]
  rw [getLocal_enter, hlocals, Option.none_or, ite_self]

/-- A call binds its argument, wherever it begins. -/
theorem getLocal_enter_param {c : Closure} {p : Param} (hc : c.params = [p]) (hp : p.name ≠ "this") (v : Value)
    {i : ScopeId} (hi : .ofIndex s.scopes.size = i) :
    (s.apply (.enter c this [v])).scopes.getLocal i p.name = some v := by
  have hlocals : (c.locals this [v]).get? p.name = some v := by
    simp [Closure.locals, Closure.bindLocals, hc, bindParams, Ne.symm hp]
  rw [getLocal_enter, if_pos hi, hlocals, Option.some_or]

/-- No call begins in the global scope. -/
theorem getLocal_enter_global (hs : 0 < s.scopes.size) (name : String) :
    (s.apply (.enter c this args)).scopes.getLocal .global name = s.scopes.getLocal .global name := by
  rw [getLocal_enter, if_neg]
  intro h
  exact absurd (congrArg ScopeId.index (taken_of_ofIndex hs h).1) (by decide)

/-! ## Calls one after another -/

/-- The store after so many calls of a closure that began and ended and did nothing in between. -/
def called : Nat → Store
  | 0 => s
  | n + 1 => ((called n).apply (.enter c .null [])).apply .leave

theorem size_called (n : Nat) : (s.called c n).scopes.size = s.scopes.size + n := by
  induction n with
  | zero => rfl
  | succ n ih =>
    show ((s.called c n).apply (.enter c .null [])).scopes.size = _
    rw [size_enter, ih]
    rfl

theorem depth_called (n : Nat) : (s.called c n).depth = s.depth := by
  induction n with
  | zero => rfl
  | succ n ih => exact ih

theorem parent_called {i : ScopeId} (hi : i.index < s.scopes.size) (n : Nat) :
    (s.called c n).scopes.parent i = s.scopes.parent i := by
  induction n with
  | zero => rfl
  | succ n ih =>
    show ((s.called c n).apply (.enter c .null [])).scopes.parent i = _
    rw [parent_enter, size_called, if_neg (Nat.ne_of_lt (Nat.lt_add_right n hi)), ih]

theorem getLocal_called_global (hs : 0 < s.scopes.size) (name : String) (n : Nat) :
    (s.called c n).scopes.getLocal .global name = s.scopes.getLocal .global name := by
  induction n with
  | zero => rfl
  | succ n ih =>
    show ((s.called c n).apply (.enter c .null [])).scopes.getLocal .global name = _
    rw [getLocal_enter_global, ih]
    rw [size_called]
    exact Nat.lt_add_right n hs

/-- The calls bind only `null`, their receiver, and `undefined`, for the missing arguments. -/
theorem getLocal_called (i : ScopeId) (name : String) (n : Nat) {v : Value}
    (h : (s.called c n).scopes.getLocal i name = some v) :
    v = .undefined ∨ v = .null ∨ s.scopes.getLocal i name = some v := by
  induction n with
  | zero => exact .inr (.inr h)
  | succ n ih =>
    have h : ((s.called c n).apply (.enter c .null [])).scopes.getLocal i name = some v := h
    rw [getLocal_enter] at h
    split at h
    · rcases Option.or_eq_some_iff.mp h with hv | ⟨-, hv⟩
      · rcases Closure.locals_get hv with hv | hv | hv
        · exact .inl hv
        · exact .inr (.inl hv)
        · cases hv
      · exact ih hv
    · exact ih h

end Store

section
variable {ω : Type} [World ω] {m : Machine} {c : Closure} {span : Span}

/-- A call of a function with nothing in its body begins and ends. -/
theorem invoke_idle (hbody : c.body = .block span []) (room : Nat) (this : Value) (args : List Value) (w : ω) :
    Eval.invoke m (room + 1) c this args w =
      .ok .undefined (World.apply (World.apply w (.enter c this args)) .leave) := by
  rw [Eval.invoke_succ, hbody]
  rfl

/-- A statement that calls such a function by its name. -/
theorem eval_idle_call (hbody : c.body = .block span []) {room : Nat} {scope : ScopeId} {name : String} {arguments : List Node}
    {args : List Value} {w : ω} (hargs : ∀ inv, Eval.evalArguments m inv arguments scope w = .ok args w)
    (hget : (World.store w).scopes.get scope name = .function c) (s₁ s₂ s₃ : Span) :
    Eval.eval m (Eval.invoke m (room + 1)) (.expression s₁ (.call s₂ (.ident s₃ name) arguments)) scope w =
      .ok (.normal .undefined) (World.apply (World.apply w (.enter c .null args)) .leave) := by
  have hcall : Eval.callCallee m (Eval.invoke m (room + 1)) (.ident s₃ name) (.function c) .null args w =
      .ok .undefined (World.apply (World.apply w (.enter c .null args)) .leave) := invoke_idle hbody room .null args w
  have hlookup : (Action.lookup scope name : Action ω Value) w = .ok (.function c) w := by
    rw [← hget]
    rfl
  have hname : Eval.nameOf (.ident s₃ name) (Eval.eval m (Eval.invoke m (room + 1)) (.ident s₃ name) scope) w = .ok name w := rfl
  have hnode : Eval.eval m (Eval.invoke m (room + 1)) (.call s₂ (.ident s₃ name) arguments) scope w =
      .ok (.normal .undefined) (World.apply (World.apply w (.enter c .null args)) .leave) := by
    rw [Eval.eval]
    · refine Action.located_ok _ ?_
      rw [Action.bind_ok (hargs _), Action.bind_ok hname, Action.bind_ok hlookup, Action.bind_ok hcall]
      rfl
    · simp
  rw [Eval.eval]
  refine Action.located_ok _ ?_
  rw [Action.bind_ok hnode]
  rfl

theorem evaluate_idle_call (hbody : c.body = .block span []) {scope : ScopeId} {name : String} {arguments : List Node}
    {args : List Value} {w : ω} (hroom : 0 < m.room (World.store w))
    (hargs : ∀ inv, Eval.evalArguments m inv arguments scope w = .ok args w)
    (hget : (World.store w).scopes.get scope name = .function c) {s₁ s₂ s₃ : Span} :
    m.evaluate (.expression s₁ (.call s₂ (.ident s₃ name) arguments)) scope w =
      .ok (.normal .undefined) (World.apply (World.apply w (.enter c .null args)) .leave) := by
  obtain ⟨room, hroom⟩ := Nat.exists_eq_succ_of_ne_zero (Nat.ne_of_gt hroom)
  unfold Machine.evaluate
  rw [hroom]
  exact eval_idle_call hbody hargs hget s₁ s₂ s₃

theorem evaluate_program {span : Span} {ss : List Node} {scope : ScopeId} {w w' : ω}
    (h : Eval.evalEach m (Eval.invoke m (m.room (World.store w))) ss scope w = .ok () w') :
    m.evaluate (.program span ss) scope w = .ok (.normal .undefined) w' := by
  unfold Machine.evaluate
  rw [Eval.eval]
  refine Action.located_ok _ ?_
  rw [Action.bind_ok h]
  rfl

end

namespace Session

/-- The session after a tree was run so many times. -/
def rerun (s : Session) (tree : Node) : Nat → Session
  | 0 => s
  | n + 1 => ((s.rerun tree n).evaluate tree).2

theorem Reachable.rerun {s : Session} (h : s.Reachable) {source : String} {tree : Node} (hp : parse source = .ok tree)
    (n : Nat) : (s.rerun tree n).Reachable := by
  induction n with
  | zero => exact h
  | succ n ih => exact .run ih hp

@[simp] theorem rerun_machine (s : Session) (tree : Node) (n : Nat) : (s.rerun tree n).machine = s.machine := by
  induction n with
  | zero => rfl
  | succ n ih => exact (perform_machine _ _).trans ih

/-- What runs of a program do that calls a function with nothing in its body. -/
theorem rerun_store {s : Session} {c : Closure} {span : Span} {name : String} (hbody : c.body = .block span [])
    (hget : s.store.scopes.getLocal .global name = some (.function c)) (hroom : 0 < s.machine.room s.store)
    (s₀ s₁ s₂ s₃ : Span) (n : Nat) :
    (s.rerun (.program s₀ [.expression s₁ (.call s₂ (.ident s₃ name) [])]) n).store = s.store.called c n := by
  induction n with
  | zero => rfl
  | succ n ih =>
    obtain ⟨room, hroom⟩ := Nat.exists_eq_succ_of_ne_zero (Nat.ne_of_gt hroom)
    have hroom' : s.machine.room (s.store.called c n) = room + 1 := by
      unfold Machine.room at hroom ⊢
      rw [Store.depth_called, hroom]
    have hlocal := (Store.getLocal_called_global s.store c (Scopes.lt_size_of_getLocal hget) name n).trans hget
    have hcall : Eval.eval s.machine (Eval.invoke s.machine (room + 1)) (.expression s₁ (.call s₂ (.ident s₃ name) []))
        .global (s.store.called c n) = .ok (.normal .undefined) (s.store.called c (n + 1)) :=
      eval_idle_call hbody (fun _ => rfl) (Scopes.get_of_getLocal hlocal) s₁ s₂ s₃
    have hprogram : s.machine.evaluate (.program s₀ [.expression s₁ (.call s₂ (.ident s₃ name) [])]) .global
        (s.store.called c n) = .ok (.normal .undefined) (s.store.called c (n + 1)) := by
      refine evaluate_program ?_
      rw [show s.machine.room (World.store (s.store.called c n)) = room + 1 from hroom', Eval.evalEach, Action.bind_ok hcall]
      rfl
    rw [rerun, Session.evaluate, perform_store, rerun_machine, ih, Action.after, hprogram]

/-- The session after a program that declares a function `g` with a parameter `x` and nothing in its body. -/
theorem exists_idle : ∃ s : Session, s.Reachable ∧ s.machine = ⟨.default, Console.host, false⟩ ∧ s.store.depth = 0 ∧
    s.store.scopes.size = 1 ∧ ∃ c span p, s.store.scopes.getLocal .global "g" = some (.function c) ∧
      c.body = .block span [] ∧ c.params = [p] ∧ p.name = "x" := by
  let body : Node := .block ⟨14, 17⟩ []
  let c : Closure := ⟨⟨0, 17⟩, .ident ⟨9, 10⟩ "g", [⟨"x", ⟨11, 12⟩⟩], body, .global⟩
  have hp : parse "function g(x) \x7b \x7d" = .ok (.program ⟨0, 17⟩ [.function c.span c.id c.params body]) := by cbv
  have hr := Reachable.run (.new ⟨.default, Console.host, false⟩ true [] (by simp)) hp
  exact ⟨_, hr, rfl, rfl, rfl, c, _, _, rfl, rfl, rfl, rfl⟩

/-- Programs lead to any number of scopes: `g` is called without arguments until there are `n` beside the global
    one. These bind nothing but `undefined` and `null`. -/
theorem exists_crowded (n : Nat) : ∃ s : Session, s.Reachable ∧ s.machine = ⟨.default, Console.host, false⟩ ∧
    s.store.depth = 0 ∧ s.store.scopes.size = n + 1 ∧
    (∃ c span p, s.store.scopes.getLocal .global "g" = some (.function c) ∧ c.body = .block span [] ∧
      c.params = [p] ∧ p.name = "x") ∧
    ∀ i : ScopeId, 0 < i.index → ∀ name v, s.store.scopes.getLocal i name = some v → v = .undefined ∨ v = .null := by
  obtain ⟨s, hr, hm, hdepth, hsize, c, span, p, hget, hbody, hparams, hname⟩ := exists_idle
  have hp : parse "g();" = .ok (.program ⟨0, 4⟩ [.expression ⟨0, 4⟩ (.call ⟨0, 3⟩ (.ident ⟨0, 1⟩ "g") [])]) := by cbv
  have hroom : 0 < s.machine.room s.store := by
    rw [Machine.room, hm, hdepth]
    decide
  have hstore := rerun_store hbody hget hroom ⟨0, 4⟩ ⟨0, 4⟩ ⟨0, 3⟩ ⟨0, 1⟩ n
  refine ⟨_, hr.rerun hp n, (rerun_machine _ _ n).trans hm, ?_, ?_, ⟨c, span, p, ?_, hbody, hparams, hname⟩, ?_⟩ <;>
    rw [hstore]
  · exact (Store.depth_called _ _ n).trans hdepth
  · rw [Store.size_called, hsize, Nat.add_comm]
  · exact (Store.getLocal_called_global _ _ (Scopes.lt_size_of_getLocal hget) _ n).trans hget
  · intro i hi name v hv
    rcases Store.getLocal_called _ _ i name n hv with hv | hv | hv
    · exact .inl hv
    · exact .inr hv
    · have hlt := Scopes.lt_size_of_getLocal hv
      omega

end Session

end Treewalk
