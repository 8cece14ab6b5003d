/-
  Treewalk.Proofs.Journal — the changes that an evaluation makes, one after another.

  A `Journal` is a world that remembers every change since a store. What it remembers is what was
  done: an action's final store is what its changes make of the first (`evaluate_applyAll`). The
  stores in between, one for each number of changes, are the moments of the evaluation.

  Proved: what an upheld discipline keeps, it keeps at every moment (`always_upheld`,
  `evaluate_always`), not only where an evaluation ends.
-/

import Treewalk.Proofs.Discipline
import Treewalk.Proofs.Termination

namespace Treewalk

namespace Store

theorem applyAll_append (s : Store) (cs ds : List Change) : s.applyAll (cs ++ ds) = (s.applyAll cs).applyAll ds :=
  List.foldl_append

theorem applyAll_concat (s : Store) (cs : List Change) (c : Change) :
    s.applyAll (cs ++ [c]) = (s.applyAll cs).apply c :=
  applyAll_append s cs [c]

end Store

/-- The changes since a store. -/
structure Journal (start : Store) where
  changes : List Change

namespace Journal

variable {start : Store}

instance : World (Journal start) where
  store j := start.applyAll j.changes
  apply j c := ⟨j.changes ++ [c]⟩
  store_apply j c := start.applyAll_concat j.changes c

/-- Nothing has changed yet. -/
def blank (start : Store) : Journal start := ⟨[]⟩

/-- The journal as it was after the first `k` changes. -/
def upTo (j : Journal start) (k : Nat) : Journal start := ⟨j.changes.take k⟩

@[simp] theorem changes_apply (j : Journal start) (c : Change) : (World.apply j c).changes = j.changes ++ [c] := rfl

theorem upTo_of_le {j : Journal start} {k : Nat} (h : j.changes.length ≤ k) : j.upTo k = j := by
  unfold upTo
  rw [List.take_of_length_le h]

/-- One more change adds one more moment. -/
theorem upTo_apply (j : Journal start) (c : Change) (k : Nat) :
    (World.apply j c).upTo k = j.upTo k ∨ (World.apply j c).upTo k = World.apply j c := by
  rcases Nat.lt_or_ge j.changes.length k with h | h
  · right
    refine upTo_of_le ?_
    rw [changes_apply, List.length_append]
    exact h
  · left
    unfold upTo
    rw [changes_apply, List.take_append_of_le_length h]

end Journal

/-- The changes an action makes to a store. -/
def Action.changes {α : Type} (start : Store) (a : Action (Journal start) α) : List Change :=
  (a.after (.blank start)).changes

/-- The store an evaluation leaves is what its changes make of the one it began in. -/
theorem evaluate_applyAll (m : Machine) (n : Node) (scope : ScopeId) (s : Store) :
    (m.evaluate n scope).after s = s.applyAll (Action.changes s (m.evaluate n scope)) := by
  have hstore := evaluate_store m n scope (Journal.blank s)
  show Action.after _ (World.store (Journal.blank s)) = World.store (Action.after _ (Journal.blank s))
  rw [Action.after, Action.after, hstore]
  cases m.evaluate n scope (Journal.blank s) <;> rfl

/-! ## What holds at every moment -/

namespace Discipline

variable {start : Store} {m : Machine}

/-- The discipline whose invariant has held since the journal was blank. -/
def always (D : Discipline (Journal start)) : Discipline (Journal start) where
  Inv j := D.Inv j ∧ ∀ k, D.Inv (j.upTo k)
  Rel := D.Rel
  Knows := D.Knows
  Fits := D.Fits

theorem always_apply {D : Discipline (Journal start)} {j : Journal start} {c : Change} (hj : D.always.Inv j)
    (h : D.Inv (World.apply j c)) : D.always.Inv (World.apply j c) := by
  refine ⟨h, fun k => ?_⟩
  rcases j.upTo_apply c k with hk | hk
  · rw [hk]
    exact hj.2 k
  · rw [hk]
    exact h

theorem always_upheld {D : Discipline (Journal start)} (hD : D.Upheld m) : D.always.Upheld m where
  refl := hD.refl
  trans := hD.trans
  knows_mono := hD.knows_mono
  fits_mono := hD.fits_mono
  fits_below := hD.fits_below
  fits_function := hD.fits_function
  bound_known hi := hD.bound_known hi.1
  host := hD.host
  bind hi hr hn hg hf hd := by
    obtain ⟨hb, hr'⟩ := hD.bind hi.1 hr hn hg hf hd
    exact ⟨always_apply hi hb, hr'⟩
  enter hi hc ht ha := by
    obtain ⟨he, hn⟩ := hD.enter hi.1 hc ht ha
    exact ⟨always_apply hi he, hn⟩
  leave hi hi' hr := by
    obtain ⟨hl, hr', hk⟩ := hD.leave hi.1 hi'.1 hr
    exact ⟨always_apply hi' hl, hr', hk⟩
  print hi := by
    obtain ⟨hp, hr⟩ := hD.print hi.1
    exact ⟨always_apply hi hp, hr⟩

/-- An upheld discipline is kept at every moment of an evaluation. -/
theorem evaluate_always {D : Discipline (Journal start)} (hD : D.Upheld m) (n : Node) (scope : ScopeId)
    (hi : D.Inv (.blank start)) (hn : D.Fits (.blank start) n scope) (k : Nat) :
    D.Inv ⟨(Action.changes start (m.evaluate n scope)).take k⟩ := by
  have hblank : D.always.Inv (.blank start) := ⟨hi, fun k => by simpa [Journal.upTo, Journal.blank] using hi⟩
  exact (evaluate_keeps (always_upheld hD) hblank hn).after.1.2 k

end Discipline

end Treewalk
