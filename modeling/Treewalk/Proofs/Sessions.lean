/-
  Treewalk.Proofs.Sessions — sessions in which programs run one after another.

  A session begins with the global scope alone (`new_fresh`) and, if the globals it is given have no
  closures, without any closure (`new_closureFree`). `Reachable` are the sessions that programs lead to
  from there, each read by the parser and run to its end, be it a value or an error.
-/

import Treewalk.Grammar.Program
import Treewalk.Session
import Treewalk.Proofs.Closures

namespace Treewalk

namespace Session

/-- What defining a global keeps holds of a new session. -/
theorem new_of_define {P : Session → Prop} {Q : Value → Prop} {m : Machine} (hstart : P ⟨m, Store.new⟩)
    (hdefine : ∀ s name v, P s → Q v → P (s.define name v)) (hconsole : Q (Console.object 0)) (seedConsole : Bool)
    {globals : Table Value} (hg : ∀ g ∈ globals, Q g.2) : P (new m seedConsole globals) := by
  have hglobals : ∀ s, P s → P (globals.foldl (fun s g => s.define g.1 g.2) s) := by
    induction globals with
    | nil => exact fun s h => h
    | cons g globals ih =>
      obtain ⟨hv, hrest⟩ := List.forall_mem_cons.mp hg
      exact fun s h => ih hrest _ (hdefine s g.1 g.2 h hv)
  unfold new
  refine hglobals _ ?_
  split
  · exact hdefine _ _ _ hstart hconsole
  · exact hstart

theorem store_new_binds (P : Closure → Prop) : Store.new.Binds P := by
  intro i name v hv
  obtain ⟨f, hf, hv⟩ := Option.bind_eq_some_iff.mp hv
  obtain ⟨hlt, hf⟩ := Array.getElem?_eq_some_iff.mp hf
  have hi : i.index = 0 := Nat.lt_one_iff.mp hlt
  subst hf
  simp [Store.new, Scopes.new, Table.get?, hi] at hv

/-- Without closures among its globals a session begins without any. -/
theorem new_closureFree (m : Machine) (seedConsole : Bool) {globals : Table Value}
    (hg : ∀ g ∈ globals, g.2.closures = []) : (new m seedConsole globals).store.Binds (fun _ => False) := by
  refine new_of_define (P := fun s => s.store.Binds _) (Q := fun v => v.closures = []) (store_new_binds _) ?_ rfl
    seedConsole hg
  intro s name v hs hv
  exact Store.Binds.bind hs (Value.only_of_closures_nil hv) .global name

/-- A session with the global scope alone, in which nothing has run. -/
structure Fresh (m : Machine) (s : Session) : Prop where
  machine : s.machine = m
  size : s.store.scopes.size = 1
  parent : s.store.scopes.parent .global = none
  depth : s.store.depth = 0

theorem new_fresh (m : Machine) (seedConsole : Bool) (globals : Table Value) : (new m seedConsole globals).Fresh m := by
  refine new_of_define (Q := fun _ => True) ⟨rfl, rfl, rfl, rfl⟩ ?_ trivial seedConsole fun _ _ => trivial
  intro s name v h _
  exact ⟨h.machine, by simpa [define] using h.size, by simpa [define] using h.parent, h.depth⟩

/-- The sessions that programs lead to. -/
inductive Reachable : Session → Prop
  | new (m : Machine) (seedConsole : Bool) (globals : Table Value) :
      (∀ g ∈ globals, g.2.closures = []) → Reachable (new m seedConsole globals)
  | run {s : Session} {source : String} {tree : Node} :
      Reachable s → parse source = .ok tree → Reachable (s.evaluate tree).2

end Session

end Treewalk
