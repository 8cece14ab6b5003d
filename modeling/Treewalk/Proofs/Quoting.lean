/-
  Treewalk.Proofs.Quoting — a name that is not looked up might as well be quoted.

  Operands, arguments of calls and the names of functions are where a name is more than its text.
  Everywhere else a name may be written as the string of that name (`Licence.quoting`): in
  declarations and initializers, behind `return`, in arrays, as the object or the property of a
  member, as a plain callee, as a statement. Proved: no evaluation shows which names are quoted
  (`evaluate_quoted`), but for what an error calls a callee that is no function.
-/

import Treewalk.Proofs.Rewriting.Evaluation

namespace Treewalk

/-- Names may be quoted where they stand. -/
def Licence.quoting : Licence := ⟨Eq, True, False⟩

/-- The same trouble in the same place, whatever a callee is called that is no function. -/
structure EvalError.Resembles (e f : EvalError) : Prop where
  cause : e.cause = f.cause ∨ ∃ callee callee', e.cause = .notCallable callee ∧ f.cause = .notCallable callee'
  span : e.span = f.span
  notes : e.notes = f.notes

theorem EvalError.Matches.resembles {e f : EvalError} (h : e.Matches .quoting f) : e.Resembles f where
  cause := h.cause.imp_right And.right
  span := by
    have hspan := h.span
    generalize e.span = o at hspan ⊢
    generalize f.span = o' at hspan ⊢
    cases hspan with
    | none => rfl
    | some heq => exact congrArg some heq
  notes := h.notes

/-- From any store, a tree and the same tree with names quoted both succeed or both fail, leave the
    same scopes with bindings that match, and print the same. -/
theorem evaluate_quoted {m : Machine} (hm : m.host.Uniform .quoting) {n n' : Node} (h : Rewrites .quoting .value n n')
    (scope : ScopeId) (s : Store) :
    (∃ flow flow' t t', m.evaluate n scope s = .ok flow t ∧ m.evaluate n' scope s = .ok flow' t' ∧
      flow.Matches .quoting .value flow' ∧ t.Matches .quoting t') ∨
    ∃ e e' t t', m.evaluate n scope s = .error e t ∧ m.evaluate n' scope s = .error e' t' ∧
      e.Resembles e' ∧ t.Matches .quoting t' := by
  have hends := agrees_evaluate hm h scope s s (.refl (fun _ => rfl) s)
  generalize m.evaluate n scope s = r at hends ⊢
  generalize m.evaluate n' scope s = r' at hends ⊢
  cases hends with
  | ok hflow ht => exact .inl ⟨_, _, _, _, rfl, rfl, hflow, ht⟩
  | error he ht => exact .inr ⟨_, _, _, _, rfl, rfl, he.resembles, ht⟩

/-- `function f() { return [f]; } f();` with the name in the array and the callee quoted. -/
theorem evaluate_quoted_callee :
    let id (place : Nat) : Node := .ident (.point place) "f"
    let quoted (place : Nat) : Node := .string (.point place) "f"
    let program (element callee : Node) : Node := .program (.point 0)
      [.function (.point 1) (id 2) [] (.block (.point 3) [.returning (.point 4) (some (.array (.point 5) [element]))]),
        .expression (.point 7) (.call (.point 7) callee [])]
    let m : Machine := ⟨.default, Console.host, false⟩
    (∃ flow flow' t t', m.evaluate (program (id 6) (id 8)) .global Store.new = .ok flow t ∧
      m.evaluate (program (quoted 6) (quoted 8)) .global Store.new = .ok flow' t' ∧
      flow.Matches .quoting .value flow' ∧ t.Matches .quoting t') ∨
    ∃ e e' t t', m.evaluate (program (id 6) (id 8)) .global Store.new = .error e t ∧
      m.evaluate (program (quoted 6) (quoted 8)) .global Store.new = .error e' t' ∧
      e.Resembles e' ∧ t.Matches .quoting t' := by
  have hquoted (place : Nat) : Rewrites .quoting .value (.ident (.point place) "f") (.string (.point place) "f") :=
    .quoted trivial (by decide) rfl
  refine evaluate_quoted (Console.host_uniform _) (.program rfl (.cons ?_ (.cons ?_ .nil))) .global Store.new
  · exact .function rfl (.ident rfl) .nil (.block rfl (.cons (.returning rfl (.array rfl (.cons (hquoted 6) .nil))) .nil))
  · exact .expression rfl (.call rfl (by simp) (hquoted 8) .nil)

end Treewalk
