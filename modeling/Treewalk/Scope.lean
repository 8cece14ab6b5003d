/-
  Treewalk.Scope — the arena of lexical scopes.

  Scopes are never given up, so a function can go on using the scope it was declared in after the
  call that made that scope has returned. A scope's parent always has a smaller number.
-/

import Treewalk.Value

namespace Treewalk

/-- A scope: what it binds itself and where to look further. -/
structure Frame where
  parent : Option ScopeId
  bindings : Table Value

structure Scopes where
  frames : Array Frame

namespace Scopes

/-- The global scope alone, without bindings. -/
def new : Scopes := ⟨#[⟨none, []⟩]⟩

def size (s : Scopes) : Nat := s.frames.size

def isEmpty (s : Scopes) : Bool := s.size == 0

/-- A new scope inside `parent`, known by its number. When the numbers have run out it gets the last one
    once more, although that one is taken. -/
def push (s : Scopes) (parent : ScopeId) : ScopeId × Scopes := (.ofIndex s.size, ⟨s.frames.push ⟨some parent, []⟩⟩)

/-- What the scope made last is known by. -/
def latest (s : Scopes) : ScopeId := .ofIndex (s.size - 1)

def parent (s : Scopes) (i : ScopeId) : Option ScopeId := s.frames[i.index]?.bind (·.parent)

/-- Changes what a scope itself binds. -/
def update (s : Scopes) (i : ScopeId) (f : Table Value → Table Value) : Scopes :=
  ⟨s.frames.modify i.index fun frame => { frame with bindings := f frame.bindings }⟩

/-- Binds a name in a scope itself. -/
def set (s : Scopes) (i : ScopeId) (name : String) (value : Value) : Scopes := s.update i (·.put name value)

/-- What a scope itself binds a name to. -/
def getLocal (s : Scopes) (i : ScopeId) (name : String) : Option Value :=
  s.frames[i.index]?.bind (·.bindings.get? name)

/-- The nearest binding of a name, going from a scope to its parents. -/
def lookup (s : Scopes) (i : ScopeId) (name : String) : Option Value :=
  match s.getLocal i name with
  | some v => some v
  | none =>
    match s.parent i with
    | none => none
    | some p => if p.index < i.index then s.lookup p name else none
termination_by i.index

/-- The nearest binding, `undefined` if there is none. -/
def get (s : Scopes) (i : ScopeId) (name : String) : Value := (s.lookup i name).getD .undefined

def hasLocal (s : Scopes) (i : ScopeId) (name : String) : Bool := (s.getLocal i name).isSome

/-- Whether a scope itself binds a name to a truthy value. -/
def hasTruthy (s : Scopes) (i : ScopeId) (name : String) : Bool := (s.getLocal i name).any Value.isTruthy

/-! ## What binding names and making a scope do -/

section
variable (s : Scopes) (i j p : ScopeId) (f : Table Value → Table Value) (name other : String) (value : Value)

@[simp] theorem size_update : (s.update i f).size = s.size := by simp [update, size]

@[simp] theorem size_set : (s.set i name value).size = s.size := size_update s i _

@[simp] theorem size_push : (s.push p).2.size = s.size + 1 := by simp [push, size]

theorem frame_update : (s.update i f).frames[j.index]? =
    if i = j then s.frames[j.index]?.map (fun frame => { frame with bindings := f frame.bindings })
    else s.frames[j.index]? := by
  cases i
  cases j
  simp [update, Array.getElem?_modify]

theorem frame_push : (s.push p).2.frames[j.index]? =
    if j.index = s.size then some ⟨some p, []⟩ else s.frames[j.index]? := by
  show (s.frames.push _)[j.index]? = _
  rw [Array.getElem?_push]
  rfl

@[simp] theorem parent_update : (s.update i f).parent j = s.parent j := by
  simp only [parent, frame_update]
  split
  · cases s.frames[j.index]? <;> rfl
  · rfl

@[simp] theorem parent_set : (s.set i name value).parent j = s.parent j := parent_update s i j _

theorem parent_push : (s.push p).2.parent j = if j.index = s.size then some p else s.parent j := by
  simp only [parent, frame_push]
  split <;> rfl

/-- A new scope binds nothing. -/
@[simp] theorem getLocal_push : (s.push p).2.getLocal j other = s.getLocal j other := by
  simp only [getLocal, frame_push]
  split
  · rename_i hj
    have hnone : s.frames[j.index]? = none := Array.getElem?_eq_none (Nat.le_of_eq hj.symm)
    rw [hnone]
    rfl
  · rfl

theorem getLocal_set : (s.set i name value).getLocal j other =
    if i = j ∧ i.index < s.size ∧ name = other then some value else s.getLocal j other := by
  simp only [getLocal, set, frame_update]
  by_cases hij : i = j
  · subst hij
    cases hf : s.frames[i.index]? with
    | none =>
      have : ¬ i.index < s.size := by simpa [size] using hf
      simp [this]
    | some f =>
      have : i.index < s.size := by simpa [size] using (Array.getElem?_eq_some_iff.mp hf).1
      simp [this]
  · simp [hij]

/-- Where a scope is given bindings of its own on top of those it had. -/
theorem getLocal_update {own : Table Value} (hf : ∀ t, (f t).get? other = (own.get? other).or (t.get? other))
    (hi : i.index < s.size) : (s.update i f).getLocal j other =
      if i = j then (own.get? other).or (s.getLocal j other) else s.getLocal j other := by
  simp only [getLocal, frame_update]
  by_cases hij : i = j
  · subst hij
    obtain ⟨frame, hframe⟩ : ∃ frame, s.frames[i.index]? = some frame := ⟨_, Array.getElem?_eq_getElem hi⟩
    simp [hframe, hf]
  · simp [hij]

end

theorem parent_of_size_le {s : Scopes} {i : ScopeId} (h : s.size ≤ i.index) : s.parent i = none := by
  have hf : s.frames[i.index]? = none := Array.getElem?_eq_none h
  simp only [parent, hf, Option.bind_none]

theorem getLocal_of_size_le {s : Scopes} {i : ScopeId} {name : String} (h : s.size ≤ i.index) :
    s.getLocal i name = none := by
  have hf : s.frames[i.index]? = none := Array.getElem?_eq_none h
  simp only [getLocal, hf, Option.bind_none]

/-- A scope that binds something exists. -/
theorem lt_size_of_getLocal {s : Scopes} {i : ScopeId} {name : String} {v : Value}
    (h : s.getLocal i name = some v) : i.index < s.size := by
  obtain ⟨f, hf, -⟩ := Option.bind_eq_some_iff.mp h
  exact (Array.getElem?_eq_some_iff.mp hf).1

end Scopes

end Treewalk
