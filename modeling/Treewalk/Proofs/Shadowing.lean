/-
  Treewalk.Proofs.Shadowing — what one binding changes, seen from every scope.

  An arena is `Built` by making scopes inside scopes that exist and by binding names in scopes that exist.
  The scopes in it form a tree, however deep; `Outward s t path i` goes through it from the scope `t` to
  the scope `i`, and `path` are the scopes passed before `i`. A scope is `Exposed` to another for a name if
  none of these binds the name: to `undefined` counts as binding it.

  Proved: after a name is bound in a scope, it is found with its new value from the scopes that this one is
  exposed to; everything else is found as before (`Rooted.lookup_set`). As long as there is a number for it, a
  new scope is none of the old ones and all names are found from it as from the scope it was made in
  (`Rooted.lookup_push`); from old scopes they are found as before. Together `built_lookup`, with the search that
  all this is about.

  `push_when_full`: where the numbers have run out, what `push` gives is an old scope with bindings of its own.
-/

import Treewalk.Proofs.Numbering

namespace Treewalk

namespace Scopes

/-- The arenas that are made from the global scope alone. -/
inductive Built : Scopes → Prop
  | new : Built new
  | push {s : Scopes} {p : ScopeId} : Built s → s.Has p → Built (s.push p).2
  | set {s : Scopes} {i : ScopeId} (name : String) (v : Value) : Built s → s.Has i → Built (s.set i name v)

theorem Built.rooted {s : Scopes} (h : s.Built) : s.Rooted := by
  induction h with
  | new => exact new_rooted
  | push _ hp ih => exact ih.push hp
  | set name v _ _ ih => exact ih.set _ name v

/-- From the scope `t` over its parents to `i`, passing the scopes in `path` before. -/
inductive Outward (s : Scopes) : ScopeId → List ScopeId → ScopeId → Prop
  | here {i : ScopeId} : Outward s i [] i
  | parent {t p i : ScopeId} {path : List ScopeId} : s.parent t = some p → Outward s p path i → Outward s t (t :: path) i

/-- The scope `i` is on the way outward from `t`, and no scope before it binds the name. -/
def Exposed (s : Scopes) (name : String) (t i : ScopeId) : Prop :=
  ∃ path, s.Outward t path i ∧ ∀ j ∈ path, s.getLocal j name = none

/-! ## One step outward -/

section
variable {s : Scopes} {i j p t : ScopeId} {name : String}

theorem Exposed.here : s.Exposed name i i := ⟨[], .here, List.forall_mem_nil _⟩

theorem Exposed.parent (hp : s.parent t = some p) (hfree : s.getLocal t name = none) (h : s.Exposed name p i) :
    s.Exposed name t i := by
  obtain ⟨path, hpath, hnone⟩ := h
  exact ⟨t :: path, .parent hp hpath, List.forall_mem_cons.mpr ⟨hfree, hnone⟩⟩

theorem Has.set (h : s.Has t) (i : ScopeId) (name : String) (v : Value) : (s.set i name v).Has t := by
  rwa [Has, size_set]

theorem Has.push (h : s.Has t) (p : ScopeId) : (s.push p).2.Has t := by
  rw [Has, size_push]
  exact Nat.lt_succ_of_lt h

/-- What a scope that is made is known by exists, whether it is new or not. -/
theorem has_push (s : Scopes) (p : ScopeId) : (s.push p).2.Has (s.push p).1 := by
  rw [Has, size_push]
  exact Nat.lt_succ_of_le (ScopeId.index_ofIndex_le s.size)

namespace Rooted

theorem has_parent (h : s.Rooted) (ht : s.Has t) (hp : s.parent t = some p) : s.Has p := Nat.lt_trans (h.parent_lt ht hp) ht

/-- What holds of a scope if it holds of its parent holds of all scopes. -/
theorem outward_induction (h : s.Rooted) {motive : ∀ t, s.Has t → Prop}
    (step : ∀ t (ht : s.Has t), (∀ p (hp : s.parent t = some p), motive p (h.has_parent ht hp)) → motive t ht)
    (t : ScopeId) (ht : s.Has t) : motive t ht :=
  step t ht fun p hp => h.outward_induction step p (h.has_parent ht hp)
termination_by t.index
decreasing_by exact h.parent_lt ht hp

/-- A name that a scope binds is found there, any other from the scope's parent. -/
theorem lookup_eq (h : s.Rooted) (ht : s.Has t) (name : String) :
    s.lookup t name = (s.getLocal t name).or ((s.parent t).bind (s.lookup · name)) := by
  rw [lookup]
  cases s.getLocal t name with
  | some v => rfl
  | none =>
    cases hp : s.parent t with
    | none => rfl
    | some p => exact if_pos (h.parent_lt ht hp)

/-- Where two arenas have the same parents and bindings of a name, the name is found alike. -/
theorem lookup_congr {s' : Scopes} (h : s.Rooted) (h' : s'.Rooted) (hhas : ∀ j, s.Has j → s'.Has j)
    (hparent : ∀ j, s.Has j → s'.parent j = s.parent j)
    (hlocal : ∀ j, s.Has j → s'.getLocal j name = s.getLocal j name) (ht : s.Has t) : s'.lookup t name = s.lookup t name := by
  induction t, ht using h.outward_induction with
  | step t ht ih =>
    rw [h.lookup_eq ht, h'.lookup_eq (hhas t ht), hlocal t ht, hparent t ht]
    cases hp : s.parent t with
    | none => rfl
    | some p => rw [Option.bind_some, Option.bind_some, ih p hp]

/-! ## Binding a name -/

/-- A binding is found from every scope that it is exposed to. -/
theorem lookup_set_exposed (h : s.Rooted) (hi : s.Has i) (v : Value) (ht : s.Has t) (hexposed : s.Exposed name t i) :
    (s.set i name v).lookup t name = some v := by
  obtain ⟨path, hpath, hfree⟩ := hexposed
  have hset : (s.set i name v).Rooted := h.set i name v
  have hhere : (s.set i name v).getLocal i name = some v := by simp [getLocal_set, show i.index < s.size from hi]
  induction hpath with
  | @here i => rw [hset.lookup_eq (hi.set i name v), hhere, Option.some_or]
  | @parent t p i path hp _ ih =>
    obtain ⟨hfree, hrest⟩ := List.forall_mem_cons.mp hfree
    rw [hset.lookup_eq (ht.set i name v), parent_set, hp, Option.bind_some,
      ih hi (h.has_parent ht hp) hrest hset hhere, getLocal_set, hfree]
    split <;> rfl

/-- From the other scopes nothing has changed. -/
theorem lookup_set_hidden (h : s.Rooted) (v : Value) (ht : s.Has t) (hhidden : ¬ s.Exposed name t i) :
    (s.set i name v).lookup t name = s.lookup t name := by
  have hset : (s.set i name v).Rooted := h.set i name v
  induction t, ht using h.outward_induction with
  | step t ht ih =>
    have hne : i ≠ t := by
      rintro rfl
      exact hhidden .here
    rw [hset.lookup_eq (ht.set i name v), h.lookup_eq ht, parent_set, getLocal_set, if_neg (hne ·.1)]
    cases hlocal : s.getLocal t name with
    | some w => rfl
    | none =>
      cases hp : s.parent t with
      | none => rfl
      | some p => exact ih p hp fun hexposed => hhidden (hexposed.parent hp hlocal)

theorem lookup_set (h : s.Rooted) (hi : s.Has i) (ht : s.Has t) (name other : String) (v : Value) :
    (other = name ∧ s.Exposed name t i → (s.set i name v).lookup t other = some v) ∧
      (¬ (other = name ∧ s.Exposed name t i) → (s.set i name v).lookup t other = s.lookup t other) := by
  by_cases hname : other = name
  · subst hname
    exact ⟨fun hexposed => h.lookup_set_exposed hi v ht hexposed.2,
      fun hnot => h.lookup_set_hidden v ht fun hexposed => hnot ⟨rfl, hexposed⟩⟩
  · refine ⟨fun hexposed => absurd hexposed.1 hname, fun _ => ?_⟩
    refine h.lookup_congr (h.set i name v) (fun j hj => hj.set i name v) (fun j _ => parent_set s i j name v) ?_ ht
    intro j _
    rw [getLocal_set, if_neg fun hsame => hname hsame.2.2.symm]

/-! ## Making a scope -/

/-- From old scopes nothing has changed. -/
theorem lookup_push_old (h : s.Rooted) (hp : s.Has p) (ht : s.Has t) (name : String) :
    (s.push p).2.lookup t name = s.lookup t name := by
  refine h.lookup_congr (h.push hp) (fun j hj => hj.push p) (fun j hj => ?_) (fun j _ => getLocal_push s j p name) ht
  rw [parent_push, if_neg (Nat.ne_of_lt hj)]

/-- From the new scope a name is found as from its parent, if the scope has a number of its own. -/
theorem lookup_push (h : s.Rooted) (hp : s.Has p) (hsize : s.size ≤ ScopeId.maxIndex) (name : String) :
    (s.push p).2.lookup (s.push p).1 name = s.lookup p name := by
  have hnew : (s.push p).1 = ⟨s.size⟩ := ScopeId.ofIndex_of_le hsize
  rw [(h.push hp).lookup_eq (has_push s p), getLocal_push, parent_push, hnew, if_pos rfl,
    getLocal_of_size_le (i := ⟨s.size⟩) (Nat.le_refl s.size), Option.none_or, Option.bind_some, h.lookup_push_old hp hp]

end Rooted

end

/-- In every arena that is built, from every scope that exists: after a name is bound in a scope, it is found with its new
    value from where that scope is exposed, and all else is found as it was. As long as there are numbers, a new
    scope is none of the old ones and from it every name is found as from the scope it was made in; later it goes
    by the last number, which an old scope has. From the old scopes every name is found as it was. What is
    found is what the search over the parents ends at. -/
theorem built_lookup {s : Scopes} (h : s.Built) :
    (∀ (i t : ScopeId) (name other : String) (v : Value), s.Has i → s.Has t →
      (other = name ∧ s.Exposed name t i → (s.set i name v).lookup t other = some v) ∧
        (¬ (other = name ∧ s.Exposed name t i) → (s.set i name v).lookup t other = s.lookup t other)) ∧
    (∀ p : ScopeId, s.Has p →
      (s.size ≤ ScopeId.maxIndex → ¬ s.Has (s.push p).1 ∧ (s.push p).2.Has (s.push p).1 ∧
        ∀ name : String, (s.push p).2.lookup (s.push p).1 name = s.lookup p name) ∧
      (ScopeId.maxIndex < s.size → s.Has (s.push p).1 ∧ (s.push p).1 = .last) ∧
      ∀ (t : ScopeId) (name : String), s.Has t → (s.push p).2.Has t ∧ (s.push p).2.lookup t name = s.lookup t name) ∧
    ∀ (t : ScopeId) (name : String), s.Has t → s.Search name t (s.lookup t name) := by
  have hrooted := h.rooted
  refine ⟨fun i t name other v hi ht => hrooted.lookup_set hi ht name other v, fun p hp => ⟨fun hsize => ?_,
    fun hsize => ?_, fun t name ht => ?_⟩, fun t name ht => hrooted.search ht name⟩
  · refine ⟨fun hold => ?_, has_push s p, fun name => hrooted.lookup_push hp hsize name⟩
    exact absurd (taken_of_ofIndex hold rfl).2 (Nat.not_lt.mpr hsize)
  · have hlast : (s.push p).1 = .last := ScopeId.ofIndex_of_ge (Nat.le_of_lt hsize)
    rw [hlast]
    exact ⟨hsize, rfl⟩
  · exact ⟨ht.push p, hrooted.lookup_push_old hp ht name⟩

/-- A scope inside one that binds `x` to `undefined`: it does not see what `x` is bound to further out, but it does see
    what is bound in between. -/
theorem built_lookup_undefined :
    let s := (((new.push .global).2.set ⟨1⟩ "x" .undefined).push ⟨1⟩).2
    s.Built ∧ (s.set .global "x" .null).lookup ⟨2⟩ "x" = some .undefined ∧
      (s.set ⟨1⟩ "x" .null).lookup ⟨2⟩ "x" = some .null ∧ (s.push ⟨2⟩).2.lookup ⟨3⟩ "x" = some .undefined := by
  intro s
  have hbuilt : s.Built := .push (.set "x" .undefined (.push .new Nat.zero_lt_one) Nat.one_lt_two) Nat.one_lt_two
  have hbound : s.getLocal ⟨1⟩ "x" = some .undefined := rfl
  have hfree : s.getLocal ⟨2⟩ "x" = none := rfl
  have hparent : s.parent ⟨2⟩ = some ⟨1⟩ := rfl
  have hhas {k : Nat} (hk : k < 3) : s.Has ⟨k⟩ := hk
  have hfound : s.lookup ⟨2⟩ "x" = some .undefined := by
    rw [hbuilt.rooted.lookup_eq (hhas (by omega)), hfree, hparent, Option.none_or, Option.bind_some,
      hbuilt.rooted.lookup_eq (hhas (by omega)), hbound, Option.some_or]
  have hhidden : ¬ s.Exposed "x" ⟨2⟩ .global := by
    rintro ⟨path, hpath, hnone⟩
    cases hpath with
    | parent hp hpath =>
      cases hparent.symm.trans hp
      cases hpath with
      | parent hp hpath => cases hbound.symm.trans (hnone ⟨1⟩ (List.mem_cons_of_mem _ List.mem_cons_self))
  obtain ⟨hset, hpush, -⟩ := built_lookup hbuilt
  refine ⟨hbuilt, ?_, ?_, ?_⟩
  · rw [(hset .global ⟨2⟩ "x" "x" .null (hhas (by omega)) (hhas (by omega))).2 fun h => hhidden h.2, hfound]
  · exact (hset ⟨1⟩ ⟨2⟩ "x" "x" .null (hhas (by omega)) (hhas (by omega))).1 ⟨rfl, Exposed.here.parent hparent hfree⟩
  · exact (((hpush ⟨2⟩ (hhas (by omega))).1 (by decide)).2.2 "x").trans hfound

/-- An arena of so many scopes beside the global one, all of them directly inside it. -/
def flat : Nat → Scopes
  | 0 => new
  | n + 1 => ((flat n).push .global).2

theorem size_flat (n : Nat) : (flat n).size = n + 1 := by
  induction n with
  | zero => rfl
  | succ n ih => exact (size_push _ _).trans (congrArg (· + 1) ih)

theorem flat_built (n : Nat) : (flat n).Built := by
  induction n with
  | zero => exact .new
  | succ n ih => exact .push ih ih.rooted.global

theorem getLocal_flat (n : Nat) (name : String) : (flat n).getLocal .global name = none := by
  induction n with
  | zero => rfl
  | succ n ih => exact (getLocal_push _ _ _ _).trans ih

/-- In an arena with as many scopes as there are numbers `push` gives an old scope, and from that a name is found
    which is not found from the scope that was to be the parent. -/
theorem push_when_full :
    let s := (flat ScopeId.maxIndex).set .last "x" .null
    s.Built ∧ s.Has .global ∧ s.Has (s.push .global).1 ∧ s.lookup .global "x" = none ∧
      (s.push .global).2.lookup (s.push .global).1 "x" = some .null := by
  intro s
  have hsize : s.size = ScopeId.maxIndex + 1 := (size_set _ _ _ _).trans (size_flat _)
  have hlast : s.Has .last := by
    rw [Has, hsize]
    exact Nat.lt_succ_self _
  have hbuilt : s.Built := by
    refine .set "x" .null (flat_built _) ?_
    rw [Has, size_flat]
    exact Nat.lt_succ_self _
  have hpush : (s.push .global).1 = .last := by
    show ScopeId.ofIndex s.size = .last
    rw [hsize, ScopeId.ofIndex_of_ge (Nat.le_succ _)]
  have hglobal := hbuilt.rooted.global
  have hbound : s.getLocal .last "x" = some .null := by
    rw [getLocal_set, if_pos]
    exact ⟨rfl, by rw [size_flat]; exact Nat.lt_succ_self _, rfl⟩
  have hfree : s.getLocal .global "x" = none := by
    rw [getLocal_set, if_neg (by simp [ScopeId.last, ScopeId.global, ScopeId.maxIndex]), getLocal_flat]
  rw [hpush]
  refine ⟨hbuilt, hglobal, hlast, ?_, ?_⟩
  · rw [hbuilt.rooted.lookup_eq hglobal, hfree, hbuilt.rooted.root]
    rfl
  · rw [hbuilt.rooted.lookup_push_old hglobal hlast, hbuilt.rooted.lookup_eq hlast, hbound]
    rfl

end Scopes

end Treewalk
