/-
  Treewalk.Proofs.Closures — the closures that occur in a value.

  Evaluation makes new closures only where a function is declared; every other value is put together
  from values it already has. `v.Only P` says that every closure in `v` satisfies `P`. Proved: reading
  a property (`property_closures`) and looking up a name (`lookup_bound`) bring no closure from
  elsewhere. Host functions are taken to do the same (`Host.Honest`), as the console's do
  (`Console.host_honest`). What holds of every closure that is bound somewhere (`Store.Binds`) is kept
  by each change that brings only such closures.
-/

import Treewalk.Eval

namespace Treewalk

namespace Value

mutual

/-- The closures that occur in a value, also inside arrays and objects of the host. -/
def closures : Value → List Closure
  | .function c => [c]
  | .array es => closuresAll es
  | .object _ _ members => closuresMembers members
  | .undefined | .null | .bool _ | .number _ | .string _ | .native _ => []

def closuresAll : List Value → List Closure
  | [] => []
  | v :: vs => closures v ++ closuresAll vs

def closuresMembers : List (String × Value) → List Closure
  | [] => []
  | (_, v) :: ms => closures v ++ closuresMembers ms

end

theorem mem_closuresAll {c : Closure} {vs : List Value} : c ∈ closuresAll vs ↔ ∃ v ∈ vs, c ∈ v.closures := by
  induction vs with
  | nil => simp [closuresAll]
  | cons v vs ih => simp [closuresAll, ih]

theorem mem_closuresMembers {c : Closure} {ms : List (String × Value)} :
    c ∈ closuresMembers ms ↔ ∃ e ∈ ms, c ∈ e.2.closures := by
  induction ms with
  | nil => simp [closuresMembers]
  | cons e ms ih => obtain ⟨k, v⟩ := e; simp [closuresMembers, ih]

/-- All closures that occur in a value satisfy `P`. -/
def Only (P : Closure → Prop) (v : Value) : Prop := ∀ c ∈ v.closures, P c

section
variable {P Q : Closure → Prop} {v : Value}

theorem Only.mono (h : v.Only P) (hpq : ∀ c, P c → Q c) : v.Only Q := fun c hc => hpq c (h c hc)

theorem only_of_closures_nil (h : v.closures = []) : v.Only P := by
  intro c hc
  rw [h] at hc
  cases hc

theorem only_array {vs : List Value} (h : ∀ v ∈ vs, v.Only P) : (Value.array vs).Only P := by
  intro c hc
  obtain ⟨v, hv, hc⟩ := mem_closuresAll.mp hc
  exact h v hv c hc

theorem only_function {c : Closure} : (Value.function c).Only P ↔ P c := by
  simp [Only, closures]

end

end Value

theorem Table.mem_of_get? {α : Type} {t : Table α} {key : String} {v : α} (h : t.get? key = some v) :
    (key, v) ∈ t := by
  induction t with
  | nil => cases h
  | cons e rest ih =>
    obtain ⟨k, u⟩ := e
    simp only [Table.get?] at h
    split at h
    · rename_i hk
      cases h
      rw [hk]
      exact List.mem_cons_self
    · exact List.mem_cons_of_mem _ (ih h)

/-- A property of a value has no closure that the value lacks. -/
theorem Value.property_closures {base v : Value} {key : String} (h : base.property key = .ok v) :
    ∀ c ∈ v.closures, c ∈ base.closures := by
  intro c hc
  cases base with
  | array es =>
    simp only [Value.property] at h
    split at h
    · cases h
      cases hc
    · cases hi : (Value.index? key).bind (es[·]?) with
      | none =>
        rw [hi] at h
        cases h
        cases hc
      | some u =>
        rw [hi] at h
        cases h
        obtain ⟨i, -, hu⟩ := Option.bind_eq_some_iff.mp hi
        exact Value.mem_closuresAll.mpr ⟨_, List.mem_of_getElem? hu, hc⟩
  | string s =>
    simp only [Value.property] at h
    split at h
    · cases h
      cases hc
    · cases hi : (Value.index? key).bind ((Text.units s)[·]?) with
      | none =>
        rw [hi] at h
        cases h
        cases hc
      | some u =>
        rw [hi] at h
        cases h
        cases hc
  | object serial name members =>
    simp only [Value.property] at h
    cases hg : Table.get? members key with
    | none =>
      rw [hg] at h
      cases h
      cases hc
    | some u =>
      rw [hg] at h
      cases h
      exact Value.mem_closuresMembers.mpr ⟨_, Table.mem_of_get? hg, hc⟩
  | undefined | null => cases h
  | bool _ | number _ | function _ | native _ =>
    cases h
    cases hc

theorem Value.Only.property {P : Closure → Prop} {base v : Value} {key : String} (hb : base.Only P)
    (h : base.property key = .ok v) : v.Only P :=
  fun c hc => hb c (Value.property_closures h c hc)

theorem Value.Only.result {P : Closure → Prop} {flow : Flow} (h : flow.value.Only P) : flow.result.Only P := by
  cases flow with
  | normal v => exact Value.only_of_closures_nil rfl
  | returned v => exact h

/-- The operators make numbers and strings. -/
theorem BinaryOp.apply_closures {op : BinaryOp} {a b v : Value} (h : op.apply a b = .ok v) : v.closures = [] := by
  cases op <;> simp only [BinaryOp.apply, reduceCtorEq, Except.ok.injEq] at h
  · rw [← h]
    unfold Value.plus
    split <;> rfl
  all_goals
    rw [← h]
    rfl

/-- What a scope looks up is bound in some scope, or `undefined`. -/
theorem Scopes.lookup_bound {s : Scopes} {i : ScopeId} {name : String} {v : Value}
    (h : s.lookup i name = some v) : ∃ j, s.getLocal j name = some v := by
  fun_induction Scopes.lookup s i name with
  | case1 i u hu =>
    cases h
    exact ⟨i, hu⟩
  | case2 => cases h
  | case3 i _ p _ _ ih => exact ih h
  | case4 => cases h

/-! ## Bound closures -/

theorem bindParams_get {ps : List Param} {args : List Value} {t : Table Value} {name : String} {v : Value}
    (h : (bindParams ps args t).get? name = some v) : v = .undefined ∨ v ∈ args ∨ t.get? name = some v := by
  induction ps generalizing args t with
  | nil => exact .inr (.inr h)
  | cons p ps ih =>
    rcases ih h with hv | hv | hv
    · exact .inl hv
    · exact .inr (.inl (List.mem_of_mem_tail hv))
    · rw [Table.get?_put] at hv
      split at hv
      · cases hv
        cases args with
        | nil => exact .inl rfl
        | cons a args => exact .inr (.inl List.mem_cons_self)
      · exact .inr (.inr hv)

/-- The scope of a call begins with the receiver and the arguments. -/
theorem Closure.locals_get {c : Closure} {this : Value} {args : List Value} {name : String} {v : Value}
    (h : (c.locals this args).get? name = some v) : v = .undefined ∨ v = this ∨ v ∈ args := by
  rw [Closure.locals, Closure.bindLocals, Table.get?_put] at h
  split at h
  · cases h
    exact .inr (.inl rfl)
  · rcases bindParams_get h with hv | hv | hv
    · exact .inl hv
    · exact .inr (.inr hv)
    · cases hv

theorem Closure.locals_only {P : Closure → Prop} {c : Closure} {this : Value} {args : List Value} {name : String}
    {v : Value} (ht : this.Only P) (ha : ∀ a ∈ args, a.Only P) (h : (c.locals this args).get? name = some v) :
    v.Only P := by
  rcases Closure.locals_get h with rfl | rfl | hv
  · exact Value.only_of_closures_nil rfl
  · exact ht
  · exact ha v hv

namespace Store

/-- All closures that occur in bindings satisfy `P`. -/
def Binds (s : Store) (P : Closure → Prop) : Prop := ∀ i name v, s.scopes.getLocal i name = some v → v.Only P

namespace Binds

variable {s : Store} {P Q : Closure → Prop}

theorem mono (h : s.Binds P) (hpq : ∀ c, P c → Q c) : s.Binds Q :=
  fun i name v hv => (h i name v hv).mono hpq

theorem bind (h : s.Binds P) {v : Value} (hv : v.Only P) (scope : ScopeId) (name : String) :
    (s.apply (.bind scope name v)).Binds P := by
  intro i other u hu
  simp only [apply, Scopes.getLocal_set] at hu
  split at hu
  · cases hu
    exact hv
  · exact h i other u hu

theorem enter (h : s.Binds P) {this : Value} {args : List Value} (ht : this.Only P) (ha : ∀ a ∈ args, a.Only P)
    (c : Closure) : (s.apply (.enter c this args)).Binds P := by
  intro i name u hu
  rw [getLocal_enter] at hu
  split at hu
  · rcases Option.or_eq_some_iff.mp hu with hu | ⟨-, hu⟩
    · exact Closure.locals_only ht ha hu
    · exact h i name u hu
  · exact h i name u hu

theorem leave (h : s.Binds P) : (s.apply .leave).Binds P := h

theorem print (h : s.Binds P) (lines : List Line) : (s.apply (.print lines)).Binds P := by
  intro i name u hu
  rw [apply_print_scopes] at hu
  exact h i name u hu

end Binds

end Store

/-! ## Functions of the host -/

/-- A host that gives back only closures that it was given. -/
def Host.Honest (h : Host) : Prop :=
  ∀ name tinted this args v, (h.call name tinted this args).result = .ok v →
    ∀ c ∈ v.closures, c ∈ this.closures ∨ ∃ a ∈ args, c ∈ a.closures

theorem Host.Honest.only {h : Host} (hh : h.Honest) {P : Closure → Prop} {name : String} {tinted : Bool}
    {this v : Value} {args : List Value} (ht : this.Only P) (ha : ∀ a ∈ args, a.Only P)
    (hv : (h.call name tinted this args).result = .ok v) : v.Only P := by
  intro c hc
  rcases hh _ _ _ _ _ hv c hc with hc | ⟨a, hm, hc⟩
  · exact ht c hc
  · exact ha a hm c hc

theorem Console.host_honest : Console.host.Honest := by
  intro name tinted this args v h c hc
  have hv : v = .undefined := by
    simp only [Console.host] at h
    split at h <;> (simp only [Console.print, Except.ok.injEq] at h; exact h.symm)
  rw [hv] at hc
  cases hc

end Treewalk
