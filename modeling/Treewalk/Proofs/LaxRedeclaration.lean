/-
  Treewalk.Proofs.LaxRedeclaration — counting only truthy bindings as taken is the laxer check.

  A name bound to a truthy value is bound, so where the check of truthy bindings stops, the check of
  any binding stops as well. Nothing else that a node asks for depends on the check.

  Proved (`evaluate_withRedeclaration`): an evaluation that the strict check does not stop ends the
  same way, in the same store, under the lax one; of one that it stops, the texts are the beginnings
  of those written under the lax one.
-/

import Treewalk.Proofs.Outlasting

namespace Treewalk

open Plan

/-- The machine with another check of declared names. -/
def Machine.withRedeclaration (m : Machine) (r : Redeclaration) : Machine :=
  { m with options := { m.options with redeclaration := r } }

/-- Whether a declared name was taken. -/
def EvalError.isDuplicate (e : EvalError) : Bool := e.cause matches .duplicateDeclaration _

namespace EvalError

theorem isDuplicate_placed (e : EvalError) (place : Option Span) : (e.placed place).isDuplicate = e.isDuplicate := by
  cases place <;> rfl

theorem isDuplicate_iff {e : EvalError} : e.isDuplicate = true ↔ ∃ name, e.cause = .duplicateDeclaration name := by
  unfold isDuplicate
  cases e.cause <;> simp

end EvalError

/-- A truthy binding is a binding. -/
theorem Scopes.hasLocal_of_hasTruthy {s : Scopes} {scope : ScopeId} {name : String}
    (h : s.hasTruthy scope name = true) : s.hasLocal scope name = true := by
  unfold hasTruthy at h
  unfold hasLocal
  cases hv : s.getLocal scope name with
  | none =>
    rw [hv] at h
    cases h
  | some v => rfl

section
variable (m : Machine)

theorem checkNew_curtails (scope : ScopeId) (name : String) :
    (checkNew (m.withRedeclaration .presence) scope name).Curtails EvalError.isDuplicate
      (checkNew (m.withRedeclaration .truthy) scope name) := by
  refine .look fun s => ?_
  by_cases hstrict : s.hasLocal scope name = true
  · simp only [Machine.withRedeclaration, Redeclaration.takes, hstrict, if_true]
    exact .stop rfl _
  · have hlax : ¬ s.hasTruthy scope name = true := fun h => hstrict (Scopes.hasLocal_of_hasTruthy h)
    simp only [Machine.withRedeclaration, Redeclaration.takes, hstrict, hlax]
    exact .done ()

/-- What a declaration does once its name is known. -/
theorem declaration_curtails (scope : ScopeId) (span : Span) (id : Node) {rest : String → Plan Flow} :
    (located span do
      let name ← nameOf id scope
      checkNew (m.withRedeclaration .presence) scope name
      rest name).Curtails EvalError.isDuplicate
    (located span do
      let name ← nameOf id scope
      checkNew (m.withRedeclaration .truthy) scope name
      rest name) := by
  refine .located EvalError.isDuplicate_placed (.bind (.refl _) fun name => ?_) span
  exact .bind (checkNew_curtails m scope name) fun _ => .refl _

/-- Only declarations check names. -/
theorem rule_curtails_withRedeclaration (n : Node) (scope : ScopeId) :
    (rule (m.withRedeclaration .presence) n scope).Curtails EvalError.isDuplicate
      (rule (m.withRedeclaration .truthy) n scope) := by
  cases n with
  | declarator span id init =>
    cases init with
    | none => exact declaration_curtails m scope span id
    | some e => exact declaration_curtails m scope span id
  | function span id params body => exact declaration_curtails m scope span id
  | returning span argument => cases argument <;> exact .refl _
  | call span callee args => cases callee <;> exact .refl _
  | _ => exact .refl _

end

/-- An evaluation that the strict check does not stop ends the same way in the same store under the
    lax check, and one that it stops goes on writing from where it stopped. -/
theorem evaluate_withRedeclaration (m : Machine) (n : Node) (scope : ScopeId) (s : Store) :
    let strict := (m.withRedeclaration .presence).evaluate n scope s
    let lax := (m.withRedeclaration .truthy).evaluate n scope s
    ((∀ e s' name, strict = .error e s' → e.cause ≠ .duplicateDeclaration name) → lax = strict) ∧
      ∀ e s' name, strict = .error e s' → e.cause = .duplicateDeclaration name →
        Written s' (((m.withRedeclaration .truthy).evaluate n scope).after s) := by
  have hcall := Outlasts.invoke EvalError.isDuplicate_placed (rule_curtails_withRedeclaration m) 0
    (fun _ _ _ _ => .inl rfl) (m.room s)
  rw [Nat.zero_add] at hcall
  have hrun := Outlasts.eval EvalError.isDuplicate_placed (rule_curtails_withRedeclaration m) hcall n scope s
  intro strict lax
  rcases hrun with heq | ⟨e, s', he, hdup, hw⟩
  · refine ⟨fun _ => heq.symm, fun e s' name he _ => ?_⟩
    have hafter : ((m.withRedeclaration .truthy).evaluate n scope).after s = s' := after_error (heq.symm.trans he)
    rw [hafter]
    exact .refl s'
  · refine ⟨fun hnot => ?_, fun e₂ s₂ name he₂ _ => ?_⟩
    · obtain ⟨name, hname⟩ := EvalError.isDuplicate_iff.mp hdup
      exact absurd hname (hnot e s' name he)
    · cases he.symm.trans he₂
      exact hw

/-- A name declared twice in a call, first with an empty text: the strict check stops at the second
    declaration, behind the first line. Declared once, it stops neither check. -/
theorem evaluate_withRedeclaration_empty_text :
    let log (text : String) : Node :=
      .expression .none (.call .none (.ident .none "log") [.string .none text])
    let declare (text : String) : Node :=
      .variables .none .var [.declarator .none (.ident .none "a") (some (.string .none text))]
    let closure (body : List Node) : Value := .function ⟨.none, .ident .none "f", [], .block .none body, .global⟩
    let call : Node := .expression .none (.call .none (.ident .none "f") [])
    let start (body : List Node) : Store :=
      (Store.new.apply (.bind .global "log" (.native "log"))).apply (.bind .global "f" (closure body))
    let m : Machine := ⟨.default, Console.host, false⟩
    let once : Store := start [declare "", log "one"]
    let twice : Store := start [declare "", log "one", declare "x", log "two"]
    let strict := (m.withRedeclaration .presence).evaluate call .global
    let lax := (m.withRedeclaration .truthy).evaluate call .global
    (lax once = strict once ∧ (strict.after once).out = "one\n") ∧
      ((lax.after twice).out = "one\ntwo\n" ∧ ∃ e s', strict twice = .error e s' ∧
        e.cause = .duplicateDeclaration "a" ∧ s'.out = "one\n" ∧ Written s' (lax.after twice)) := by
  intro log declare closure call start m once twice strict lax
  have honce : (match strict once with
      | .error _ _ => false
      | .ok _ s' => s'.out == "one\n") = true := by
    simp only [log, declare, closure, call, start, m, once, strict]
    decide +kernel
  have htwice : (match strict twice with
      | .error e s' => e.cause == .duplicateDeclaration "a" && s'.out == "one\n"
      | .ok _ _ => false) = true := by
    simp only [log, declare, closure, call, start, m, twice, strict]
    decide +kernel
  have hboth : (lax.after twice).out = "one\ntwo\n" := by
    simp only [log, declare, closure, call, start, m, twice, lax]
    decide +kernel
  refine ⟨?_, hboth, ?_⟩
  · cases hrun : strict once with
    | error e s' =>
      rw [hrun] at honce
      cases honce
    | ok flow s' =>
      rw [hrun] at honce
      refine ⟨?_, (congrArg Store.out (after_ok hrun)).trans (beq_iff_eq.mp honce)⟩
      refine ((evaluate_withRedeclaration m call .global once).1 fun e s' name he => ?_).trans hrun
      cases he.symm.trans hrun
  · cases hrun : strict twice with
    | ok flow s' =>
      rw [hrun] at htwice
      cases htwice
    | error e s' =>
      rw [hrun] at htwice
      obtain ⟨hcause, hout⟩ := Bool.and_eq_true_iff.mp htwice
      refine ⟨e, s', rfl, beq_iff_eq.mp hcause, beq_iff_eq.mp hout, ?_⟩
      exact (evaluate_withRedeclaration m call .global twice).2 e s' "a" hrun (beq_iff_eq.mp hcause)

end Treewalk
