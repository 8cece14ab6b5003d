/-
  Treewalk.Proofs.Searching — how a name is searched.

  `Search` is the search for a name as it goes from scope to scope, without a bound on its steps and
  without a look at the numbers of scopes; every scope it comes to must exist.

  Proved: where each scope lies inside an older one (`Rooted`) the search from a scope that exists
  comes to an end, at what `lookup` gives (`Rooted.search`). Binding a name and making a scope inside
  one that exists keep scopes rooted.
-/

import Treewalk.Scope

namespace Treewalk

namespace Scopes

/-- The scope exists. -/
def Has (s : Scopes) (i : ScopeId) : Prop := i.index < s.size

structure Rooted (s : Scopes) : Prop where
  global : s.Has .global
  root : s.parent .global = none
  inner : ∀ i, s.Has i → 0 < i.index → ∃ p, s.parent i = some p ∧ p.index < i.index

theorem new_rooted : new.Rooted where
  global := Nat.zero_lt_one
  root := rfl
  inner _ hi hpos := absurd hpos (Nat.not_lt.mpr (Nat.le_of_lt_succ hi))

namespace Rooted

variable {s : Scopes}

theorem update (h : s.Rooted) (i : ScopeId) (f : Table Value → Table Value) : (s.update i f).Rooted := by
  constructor
  · simpa [Has] using h.global
  · simpa using h.root
  · intro j hj hpos
    simp only [Has, size_update, parent_update] at hj ⊢
    exact h.inner j hj hpos

theorem set (h : s.Rooted) (i : ScopeId) (name : String) (v : Value) : (s.set i name v).Rooted := h.update i _

theorem push (h : s.Rooted) {p : ScopeId} (hp : s.Has p) : (s.push p).2.Rooted := by
  have hglobal : 0 < s.size := h.global
  constructor
  · simp [Has, ScopeId.global]
  · rw [parent_push, if_neg (by simp only [ScopeId.global]; omega)]
    exact h.root
  · intro i hi hpos
    simp only [Has, size_push] at hi
    rw [parent_push]
    split
    · rename_i hnew
      rw [hnew]
      exact ⟨p, rfl, hp⟩
    · exact h.inner i (by unfold Has; omega) hpos

theorem parent_lt (h : s.Rooted) {i p : ScopeId} (hi : s.Has i) (hp : s.parent i = some p) : p.index < i.index := by
  rcases Nat.eq_zero_or_pos i.index with h0 | hpos
  · -- The global scope has no parent.
    have hglobal : i = .global := by
      cases i
      cases h0
      rfl
    rw [hglobal, h.root] at hp
    cases hp
  · obtain ⟨q, hq, hlt⟩ := h.inner i hi hpos
    cases hq.symm.trans hp
    exact hlt

end Rooted

/-- What is found of a name from a scope outward. -/
inductive Search (s : Scopes) (name : String) : ScopeId → Option Value → Prop
  | here {i : ScopeId} {v : Value} : s.Has i → s.getLocal i name = some v → Search s name i (some v)
  | nowhere {i : ScopeId} : s.Has i → s.getLocal i name = none → s.parent i = none → Search s name i none
  | outward {i p : ScopeId} {found : Option Value} :
      s.Has i → s.getLocal i name = none → s.parent i = some p → Search s name p found → Search s name i found

theorem Rooted.search {s : Scopes} (h : s.Rooted) {i : ScopeId} (hi : s.Has i) (name : String) :
    s.Search name i (s.lookup i name) := by
  fun_induction Scopes.lookup s i name with
  | case1 i v hv => exact .here hi hv
  | case2 i hv hp => exact .nowhere hi hv hp
  | case3 i hv p hp hlt ih => exact .outward hi hv hp (ih (Nat.lt_trans hlt hi))
  | case4 i hv p hp hnot => exact absurd (h.parent_lt hi hp) hnot

end Scopes

end Treewalk
