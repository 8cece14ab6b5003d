/-
  Treewalk.Proofs.Confinement — what an evaluation leaves alone.

  `Spares touched before after` says that of the scopes of `before` only those in `touched` got new
  bindings, and that nothing was taken back: no scope, no link to a parent, no binding, no text. When the
  numbers of scopes have run out, the scope with the last one is touched by every call.

  Proved, over every tree, scope and store, and whether the evaluation returns or fails:
  - `evaluate_confined`: an evaluation touches the scope it takes place in and no other that was
    there before, and as many calls are running after it as before.
  - `expression_spares`: an expression that returns touched no scope at all that was there before,
    whatever closures it called.
  Both come from one discipline (`sparing`): a declaration binds in the scope it is evaluated in,
  and the body of a call is evaluated in a scope that is new or shared.

  `unconfined_when_full`: among as many scopes as there are numbers, a call binds its argument in a scope that
  was there before.
-/

import Treewalk.Proofs.Discipline
import Treewalk.Proofs.Numbering

namespace Treewalk

structure Spares (touched : ScopeId → Prop) (before after : Store) : Prop where
  grown : before.scopes.size ≤ after.scopes.size
  parents : ∀ i, i.index < before.scopes.size → after.scopes.parent i = before.scopes.parent i
  /-- The other scopes have exactly the bindings they had, but for the one that new scopes go by when the numbers
      have run out. -/
  untouched : ∀ i, i.index < before.scopes.size → ¬ touched i → ¬ after.scopes.Shared i →
    after.scopes.frames[i.index]? = before.scopes.frames[i.index]?
  kept : ∀ i name, before.scopes.hasLocal i name = true → after.scopes.hasLocal i name = true
  out : ∃ text, after.out = before.out ++ text
  err : ∃ text, after.err = before.err ++ text

/-- The effects of an evaluation in `scope`. -/
structure Confined (scope : ScopeId) (before after : Store) : Prop extends Spares (· = scope) before after where
  depth : after.depth = before.depth

namespace Spares

variable {touched : ScopeId → Prop} {before after : Store}

theorem refl (touched : ScopeId → Prop) (s : Store) : Spares touched s s :=
  ⟨Nat.le_refl _, fun _ _ => rfl, fun _ _ _ _ => rfl, fun _ _ h => h, ⟨"", by simp⟩, ⟨"", by simp⟩⟩

theorem bind (h : Spares touched before after) {scope : ScopeId}
    (hs : touched scope ∨ before.scopes.size ≤ scope.index ∨ after.scopes.Shared scope) (name : String) (v : Value) :
    Spares touched before (after.apply (.bind scope name v)) := by
  refine ⟨?_, ?_, ?_, ?_, h.out, h.err⟩
  · simpa [Store.apply] using h.grown
  · intro i hi
    simpa [Store.apply] using h.parents i hi
  · intro i hi ht hshared
    simp only [Scopes.Shared, Store.apply, Scopes.size_set] at hshared
    have hne : scope ≠ i := by
      intro hsame
      subst hsame
      rcases hs with hs | hs | hs
      · exact ht hs
      · omega
      · exact hshared hs
    show (after.scopes.update scope _).frames[i.index]? = _
    rw [Scopes.frame_update, if_neg hne]
    exact h.untouched i hi ht hshared
  · intro i other hb
    show ((after.scopes.set scope name v).getLocal i other).isSome = true
    rw [Scopes.getLocal_set]
    split
    · rfl
    · exact h.kept i other hb

theorem enter (h : Spares touched before after) (c : Closure) (this : Value) (args : List Value) :
    Spares touched before (after.apply (.enter c this args)) := by
  have hg := h.grown
  refine ⟨?_, ?_, ?_, ?_, h.out, h.err⟩
  · rw [Store.size_enter]
    omega
  · intro i hi
    rw [Store.parent_enter, if_neg (by omega)]
    exact h.parents i hi
  · intro i hi ht hshared
    have hold : i.index < after.scopes.size := by omega
    have hne : .ofIndex after.scopes.size ≠ i := fun hsame => hshared (after.shared_of_enter c this args hold hsame)
    rw [Store.frame_enter after c this args hold hne]
    exact h.untouched i hi ht fun hs => hshared (hs.mono (after.size_le_apply _))
  · intro i name hb
    have hl := h.kept i name hb
    simp only [Scopes.hasLocal, Store.getLocal_enter] at hl ⊢
    split
    · rw [Option.isSome_or, hl, Bool.or_true]
    · exact hl

theorem leave (h : Spares touched before after) : Spares touched before (after.apply .leave) :=
  ⟨h.grown, h.parents, h.untouched, h.kept, h.out, h.err⟩

theorem print_line (h : Spares touched before after) (line : Line) : Spares touched before (after.print line) := by
  obtain ⟨hg, hp, hu, hk, ⟨out, hout⟩, ⟨err, herr⟩⟩ := h
  unfold Store.print
  split
  · exact ⟨hg, hp, hu, hk, ⟨out ++ line.text ++ "\n", by simp [hout, String.append_assoc]⟩, ⟨err, herr⟩⟩
  · exact ⟨hg, hp, hu, hk, ⟨out, hout⟩, ⟨err ++ line.text ++ "\n", by simp [herr, String.append_assoc]⟩⟩

theorem print (h : Spares touched before after) (lines : List Line) :
    Spares touched before (after.apply (.print lines)) := by
  induction lines generalizing after with
  | nil => exact h
  | cons line lines ih =>
    rw [Store.apply_print_cons]
    exact ih (h.print_line line)

end Spares

section
variable {ω : Type} [World ω]

theorem Declares.not_isExpression {m : Machine} {room : Nat} {d : Node} {scope : ScopeId} {w₀ w : ω} {v : Value}
    (h : Declares m room d scope w₀ w v) : ¬ d.IsExpression := by
  cases h <;> (intro he; cases he)

/-- Only expressions are evaluated in a scope that is to be spared. -/
def sparing (touched : ScopeId → Prop) (before : Store) : Discipline ω where
  Inv w := Spares touched before (World.store w)
  Rel w w' := (World.store w).depth = (World.store w').depth ∧ (World.store w).scopes.size ≤ (World.store w').scopes.size
  Knows _ _ := True
  Fits w n scope :=
    n.IsExpression ∨ touched scope ∨ before.scopes.size ≤ scope.index ∨ (World.store w).scopes.Shared scope

theorem sparing_upheld (ω : Type) [World ω] (touched : ScopeId → Prop) (before : Store) (m : Machine) :
    (sparing touched before : Discipline ω).Upheld m where
  refl _ := ⟨rfl, Nat.le_refl _⟩
  trans h₁ h₂ := ⟨h₁.1.trans h₂.1, Nat.le_trans h₁.2 h₂.2⟩
  knows_mono _ h := h
  fits_mono hr h := h.imp_right fun h => h.imp_right fun h => h.imp_right fun h => h.mono hr.2
  fits_below h hd := h.imp_left fun he => he.of_mem_inScope hd
  fits_function _ := trivial
  bound_known _ _ := fun _ _ => trivial
  host _ _ _ := fun _ _ => trivial
  bind hi hr hn _ _ hd := by
    have hs := hn.resolve_left hd.not_isExpression
    refine ⟨?_, ?_, World.size_le_apply _ _⟩
    · show Spares _ _ _
      rw [World.store_apply]
      exact Spares.bind hi (hs.imp_right fun h => h.imp_right fun h => h.mono hr.2) _ _
    · rw [World.store_apply]
      rfl
  enter {w c this args} hi _ _ _ := by
    constructor
    · show Spares _ _ _
      rw [World.store_apply]
      exact Spares.enter hi _ _ _
    · refine .inr (.inr ?_)
      rw [World.store_apply]
      exact ((World.store w).latest_enter_new_or_shared c this args).imp_left fun h => Nat.le_trans hi.grown h
  leave hi hi' hr := by
    obtain ⟨hd, hsize⟩ := hr
    refine ⟨?_, ⟨?_, ?_⟩, fun _ h => h⟩
    · show Spares _ _ _
      rw [World.store_apply]
      exact Spares.leave hi'
    · rw [World.store_apply, Store.depth_enter] at hd
      rw [World.store_apply]
      simp only [Store.apply]
      omega
    · exact Nat.le_trans (World.size_le_apply _ _) (Nat.le_trans hsize (World.size_le_apply _ _))
  print hi := by
    refine ⟨?_, ?_, World.size_le_apply _ _⟩
    · show Spares _ _ _
      rw [World.store_apply]
      exact Spares.print hi _
    · rw [World.store_apply, Store.apply_print_depth]

/-! ## What every evaluation leaves alone -/

/-- An expression changes no scope that was there before. -/
theorem expression_spares {m : Machine} {room : Nat} {n : Node} {scope : ScopeId} {w w' : ω} {flow : Flow}
    (hn : n.IsExpression) (h : Eval.eval m (Eval.invoke m room) n scope w = .ok flow w') :
    Spares (fun _ => False) (World.store w) (World.store w') := by
  have hd := sparing_upheld ω (fun _ => False) (World.store w) m
  have hk := Discipline.keeps_eval hd (Discipline.invokes_invoke hd room) n scope (Spares.refl _ _) (.inl hn)
  unfold Discipline.Keeps at hk
  rw [h] at hk
  exact hk.1

end

/-- Only the scope that a node is evaluated in is touched, and every call that was begun has ended. -/
theorem evaluate_spares (m : Machine) (n : Node) (scope : ScopeId) (before : Store) :
    Spares (· = scope) before ((m.evaluate n scope).after before) ∧
      before.depth = ((m.evaluate n scope).after before).depth := by
  have hd := sparing_upheld Store (· = scope) before m
  obtain ⟨hs, hdepth, -⟩ := (Discipline.evaluate_keeps hd (Spares.refl _ _) (.inr (.inl rfl))).after
  exact ⟨hs, hdepth⟩

/-- Evaluating any node in any scope, to a value or to an error, changes no bindings of the other
    scopes that were there, only adds to everything else, and ends every call that it began. Only the last scope
    that has a number may be changed all the same, once there are more scopes than numbers. -/
theorem evaluate_confined (m : Machine) (n : Node) (scope : ScopeId) (before : Store) :
    Confined scope before ((m.evaluate n scope).after before) := by
  obtain ⟨hs, hdepth⟩ := evaluate_spares m n scope before
  exact ⟨hs, hdepth.symm⟩

/-- Programs lead to a session with as many scopes as there are numbers. There a call among the globals binds
    its argument in the last of these scopes, where the parameter had another value before. -/
theorem unconfined_when_full : ∃ s : Session, s.Reachable ∧ s.store.scopes.size = ScopeId.maxIndex + 1 ∧
    let call : Node := .expression .none (.call .none (.ident .none "g") [.bool .none true])
    let after := (s.machine.evaluate call .global).after s.store
    ScopeId.last.index < s.store.scopes.size ∧ ScopeId.last ≠ .global ∧
      after.scopes.getLocal .last "x" = some (.bool true) ∧ s.store.scopes.getLocal .last "x" ≠ some (.bool true) := by
  obtain ⟨s, hr, hm, hdepth, hsize, ⟨c, span, p, hget, hbody, hparams, hname⟩, hplain⟩ :=
    Session.exists_crowded ScopeId.maxIndex
  refine ⟨s, hr, hsize, ?_, by decide, ?_, ?_⟩
  · rw [hsize]
    exact Nat.lt_succ_self _
  · have hroom : 0 < s.machine.room (World.store s.store) := by
      show 0 < s.machine.room s.store
      rw [Machine.room, hm, hdepth]
      decide
    have hargs (inv : Invoke Store) :
        Eval.evalArguments s.machine inv [.bool .none true] .global s.store = .ok [.bool true] s.store := rfl
    rw [Action.after, evaluate_idle_call hbody hroom hargs (Scopes.get_of_getLocal hget)]
    show (s.store.apply _).scopes.getLocal .last "x" = _
    have hlast : ScopeId.ofIndex s.store.scopes.size = .last := by rw [hsize, ScopeId.ofIndex_of_ge (Nat.le_succ _)]
    exact hname ▸ s.store.getLocal_enter_param .null hparams (by simp [hname]) (.bool true) hlast
  · intro hbound
    rcases hplain .last (by decide) _ _ hbound with h | h <;> cases h

end Treewalk
