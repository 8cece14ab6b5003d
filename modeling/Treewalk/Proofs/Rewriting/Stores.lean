/-
  Treewalk.Proofs.Rewriting.Stores — stores and hosts of rewritten trees.

  Stores `Match` if they have the same scopes with matching bindings, as many running calls and the
  same console text. Proved: what matching stores look up matches (`Store.Matches.get`), the same
  names are taken in them (`Store.Matches.takes_eq`), and they match after each change that brings
  matching values (`Store.Matches.bind`, `.enter`, `.leave`, `.print`). The host's functions are taken
  to treat matching values alike (`Host.Uniform`), as the console's do (`Console.host_uniform`).
-/

import Mathlib.Data.Option.Basic
import Treewalk.Proofs.Rewriting

namespace Treewalk

structure EvalError.Matches (L : Licence) (e f : EvalError) : Prop where
  /-- Where names may be quoted, what is not callable may be called otherwise. -/
  cause : e.cause = f.cause ∨
    L.quotes ∧ ∃ callee callee', e.cause = .notCallable callee ∧ f.cause = .notCallable callee'
  span : Option.Rel L.moves e.span f.span
  notes : e.notes = f.notes

structure Store.Matches (L : Licence) (s t : Store) : Prop where
  size : s.scopes.size = t.scopes.size
  parents : ∀ i, s.scopes.parent i = t.scopes.parent i
  bindings : ∀ i name, Option.Rel (Value.Matches L) (s.scopes.getLocal i name) (t.scopes.getLocal i name)
  depth : s.depth = t.depth
  out : s.out = t.out
  err : s.err = t.err

/-- The host treats values alike that differ in the declarations of functions only. -/
def Host.Uniform (L : Licence) (host : Host) : Prop :=
  ∀ (name : String) (tinted : Bool) {this this' : Value} {args args' : List Value},
    this.Matches L this' → Value.MatchesAll L args args' →
      (host.call name tinted this args).lines = (host.call name tinted this' args').lines ∧
      ((∃ v v', (host.call name tinted this args).result = .ok v ∧ (host.call name tinted this' args').result = .ok v' ∧
        v.Matches L v') ∨
      ∃ e e', (host.call name tinted this args).result = .error e ∧
        (host.call name tinted this' args').result = .error e' ∧ e.Matches L e')

theorem Console.host_uniform (L : Licence) : Console.host.Uniform L := by
  intro name tinted this this' args args' _ hargs
  have hprint (stream : Stream) (tint : Tint) :
      Console.print stream tint tinted args = Console.print stream tint tinted args' := by
    rw [Console.print, Console.print, hargs.consoleLine_eq]
  have hreply : Console.host.call name tinted this args = Console.host.call name tinted this' args' := by
    simp only [Console.host, hprint]
  refine ⟨congrArg _ hreply, .inl ⟨.undefined, .undefined, ?_, ?_, .undefined⟩⟩
  · unfold Console.host
    dsimp only
    split <;> rfl
  · unfold Console.host
    dsimp only
    split <;> rfl

namespace Store

variable {L : Licence} {s t : Store}

theorem Matches.refl (hL : ∀ s, L.moves s s) (s : Store) : s.Matches L s where
  size := rfl
  parents _ := rfl
  bindings i name := by
    cases s.scopes.getLocal i name with
    | none => exact .none
    | some v => exact .some (.refl hL v)
  depth := rfl
  out := rfl
  err := rfl

/-! ## Lookups -/

/-- By induction along the parents, which are the same. -/
theorem Matches.lookup (h : s.Matches L t) (i : ScopeId) (name : String) :
    Option.Rel (Value.Matches L) (s.scopes.lookup i name) (t.scopes.lookup i name) := by
  induction hi : i.index using Nat.strongRecOn generalizing i with
  | ind k ih =>
    subst hi
    have hb := h.bindings i name
    unfold Scopes.lookup
    rw [← h.parents i]
    generalize s.scopes.getLocal i name = o at hb ⊢
    generalize t.scopes.getLocal i name = o' at hb ⊢
    cases hb with
    | some hv => exact .some hv
    | none =>
      cases s.scopes.parent i with
      | none => exact .none
      | some p =>
        dsimp only
        split
        · rename_i hlt
          exact ih p.index hlt p rfl
        · exact .none

theorem Matches.get (h : s.Matches L t) (i : ScopeId) (name : String) :
    (s.scopes.get i name).Matches L (t.scopes.get i name) :=
  Value.matches_getD (h.lookup i name)

theorem Matches.takes_eq (h : s.Matches L t) (r : Redeclaration) (scope : ScopeId) (name : String) :
    r.takes s.scopes scope name = r.takes t.scopes scope name := by
  have hb := h.bindings scope name
  cases r with
  | presence =>
    simp only [Redeclaration.takes, Scopes.hasLocal]
    generalize s.scopes.getLocal scope name = o at hb ⊢
    generalize t.scopes.getLocal scope name = o' at hb ⊢
    cases hb <;> rfl
  | truthy =>
    simp only [Redeclaration.takes, Scopes.hasTruthy]
    generalize s.scopes.getLocal scope name = o at hb ⊢
    generalize t.scopes.getLocal scope name = o' at hb ⊢
    cases hb with
    | none => rfl
    | some hv => exact hv.isTruthy_eq

/-! ## Changes -/

theorem Matches.bind (h : s.Matches L t) (scope : ScopeId) (name : String) {v u : Value} (hv : v.Matches L u) :
    (s.apply (.bind scope name v)).Matches L (t.apply (.bind scope name u)) where
  size := by simpa [apply] using h.size
  parents i := by simpa [apply] using h.parents i
  bindings i other := by
    simp only [apply, Scopes.getLocal_set, h.size]
    split
    · exact .some hv
    · exact h.bindings i other
  depth := h.depth
  out := h.out
  err := h.err

theorem matches_bindParams {ps ps' : List Param} (hps : List.Forall₂ (Param.Rewrites L) ps ps')
    {args args' : List Value} (ha : Value.MatchesAll L args args') {b b' : Table Value}
    (hb : ∀ name, Option.Rel (Value.Matches L) (b.get? name) (b'.get? name)) (name : String) :
    Option.Rel (Value.Matches L) (Table.get? (bindParams ps args b) name) (Table.get? (bindParams ps' args' b') name) := by
  induction hps generalizing args args' b b' with
  | nil => exact hb name
  | @cons p p' ps ps' hp _ ih =>
    have htail : Value.MatchesAll L args.tail args'.tail := by
      cases ha with
      | nil => exact .nil
      | cons _ hvs => exact hvs
    have hhead : (args.headD .undefined).Matches L (args'.headD .undefined) := by
      cases ha with
      | nil => exact .undefined
      | cons hv _ => exact hv
    refine ih htail fun other => ?_
    rw [Table.get?_put, Table.get?_put, hp.name]
    split
    · exact .some hhead
    · exact hb other

theorem matches_locals {c c' : Closure} (hc : c.Rewrites L c') {this this' : Value} (ht : this.Matches L this')
    {args args' : List Value} (ha : Value.MatchesAll L args args') (name : String) :
    Option.Rel (Value.Matches L) (Table.get? (c.locals this args) name) (Table.get? (c'.locals this' args') name) := by
  rw [Closure.locals, Closure.locals, Closure.bindLocals, Closure.bindLocals, Table.get?_put, Table.get?_put]
  split
  · exact .some ht
  · exact matches_bindParams hc.params ha (fun _ => .none) name

theorem rel_or {α : Type} {r : α → α → Prop} {a b c d : Option α} (h : Option.Rel r a b) (h' : Option.Rel r c d) :
    Option.Rel r (a.or c) (b.or d) := by
  cases h with
  | some h => exact .some h
  | none => exact h'

theorem Matches.enter (h : s.Matches L t) {c c' : Closure} (hc : c.Rewrites L c') {this this' : Value}
    (ht : this.Matches L this') {args args' : List Value} (ha : Value.MatchesAll L args args') :
    (s.apply (.enter c this args)).Matches L (t.apply (.enter c' this' args')) where
  size := by simpa [apply] using h.size
  parents i := by simp only [parent_enter, h.size, h.parents, hc.scope]
  bindings i name := by
    rw [getLocal_enter, getLocal_enter, h.size]
    split
    · exact rel_or (matches_locals hc ht ha name) (h.bindings i name)
    · exact h.bindings i name
  depth := congrArg (· + 1) h.depth
  out := h.out
  err := h.err

theorem Matches.leave (h : s.Matches L t) : (s.apply .leave).Matches L (t.apply .leave) where
  size := h.size
  parents := h.parents
  bindings := h.bindings
  depth := congrArg (· - 1) h.depth
  out := h.out
  err := h.err

theorem Matches.print (h : s.Matches L t) (lines : List Line) :
    (s.apply (.print lines)).Matches L (t.apply (.print lines)) := by
  induction lines generalizing s t with
  | nil => exact h
  | cons line lines ih =>
    rw [apply_print_cons, apply_print_cons]
    refine ih ?_
    unfold Store.print
    cases line.stream with
    | out => exact { h with out := by rw [h.out] }
    | err => exact { h with err := by rw [h.err] }

end Store

end Treewalk
