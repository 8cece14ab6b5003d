/-
  Treewalk.Proofs.CallLimit — the limit on nested calls is only a limit.

  Two machines that differ in the limit alone go through the same plans, so the one with the higher
  limit outlasts the other.

  Proved (`evaluate_withLimit`): an evaluation that does not meet the limit ends the same way, in the
  same store, under every higher limit; of one that meets it, the texts are the beginnings of those
  written under a higher limit.
-/

import Treewalk.Proofs.Outlasting

namespace Treewalk

open Plan

/-- The machine with another limit on nested calls. -/
def Machine.withLimit (m : Machine) (limit : Nat) : Machine :=
  { m with options := { m.options with maxCallDepth := limit } }

/-- What a node asks for does not depend on the limit. -/
theorem rule_withLimit (m : Machine) (limit : Nat) (n : Node) (scope : ScopeId) :
    rule (m.withLimit limit) n scope = rule m n scope := rfl

theorem EvalError.isResource_placed (e : EvalError) (place : Option Span) :
    (e.placed place).isResource = e.isResource := by
  cases place <;> rfl

section
variable {m : Machine} {k l r₁ r₂ : Nat}

theorem rule_curtails_withLimit (n : Node) (scope : ScopeId) :
    (rule (m.withLimit k) n scope).Curtails EvalError.isResource (rule (m.withLimit l) n scope) := by
  rw [rule_withLimit, rule_withLimit]
  exact .refl _

theorem outlasts_eval
    (hcall : ∀ c this args s, Outlasts EvalError.isResource (Eval.invoke (m.withLimit k) r₁ c this args)
      (Eval.invoke (m.withLimit l) r₂ c this args) s) (n : Node) (scope : ScopeId) (s : Store) :
    Outlasts EvalError.isResource (Eval.eval (m.withLimit k) (Eval.invoke (m.withLimit k) r₁) n scope)
      (Eval.eval (m.withLimit l) (Eval.invoke (m.withLimit l) r₂) n scope) s :=
  .eval EvalError.isResource_placed rule_curtails_withLimit hcall n scope s

/-- Where the smaller room is used up, the other call is still to begin. -/
theorem outlasts_invoke (h : r₁ ≤ r₂) (c : Closure) (this : Value) (args : List Value) (s : Store) :
    Outlasts EvalError.isResource (Eval.invoke (m.withLimit k) r₁ c this args)
      (Eval.invoke (m.withLimit l) r₂ c this args) s := by
  obtain ⟨more, rfl⟩ : ∃ more, r₂ = more + r₁ := ⟨r₂ - r₁, by omega⟩
  refine .invoke EvalError.isResource_placed rule_curtails_withLimit more (fun c this args s => ?_) r₁ c this args s
  exact .inr ⟨_, s, rfl, rfl, written_invoke _ _ c this args s⟩

end

/-- Under a higher limit an evaluation that does not meet the limit ends the same way in the same
    store, and one that meets it goes on writing from where it stopped. -/
theorem evaluate_withLimit (m : Machine) {k l : Nat} (h : k ≤ l) (n : Node) (scope : ScopeId) (s : Store) :
    let run₁ := (m.withLimit k).evaluate n scope s
    let run₂ := (m.withLimit l).evaluate n scope s
    ((∀ e s', run₁ = .error e s' → e.isResource = false) → run₂ = run₁) ∧
      ∀ e s', run₁ = .error e s' → e.isResource = true → Written s' (((m.withLimit l).evaluate n scope).after s) := by
  have hroom : k - s.depth ≤ l - s.depth := by omega
  have hrun := outlasts_eval (outlasts_invoke (m := m) (k := k) (l := l) hroom) n scope s
  intro run₁ run₂
  rcases hrun with heq | ⟨e, s', he, hres, hw⟩
  · refine ⟨fun _ => heq.symm, fun e s' he _ => ?_⟩
    have hafter : ((m.withLimit l).evaluate n scope).after s = s' := after_error (heq.symm.trans he)
    rw [hafter]
    exact .refl s'
  · refine ⟨fun hnot => ?_, fun e₂ s₂ he₂ _ => ?_⟩
    · have := hnot e s' he
      rw [hres] at this
      cases this
    · cases he.symm.trans he₂
      exact hw

/-- A call inside a call: under a limit of one the inner call meets it behind the first line. -/
theorem evaluate_withLimit_inner_call :
    let log (text : String) : Node :=
      .expression .none (.call .none (.ident .none "log") [.string .none text])
    let call (name : String) : Node := .expression .none (.call .none (.ident .none name) [])
    let closure (body : List Node) : Value := .function ⟨.none, .ident .none "f", [], .block .none body, .global⟩
    let s := ((Store.new.apply (.bind .global "log" (.native "log"))).apply
      (.bind .global "f" (closure [log "outer", call "g"]))).apply (.bind .global "g" (closure [log "inner"]))
    let m : Machine := ⟨.default, Console.host, false⟩
    (((m.withLimit 2).evaluate (call "f") .global).after s).out = "outer\ninner\n" ∧
      ∃ e s', (m.withLimit 1).evaluate (call "f") .global s = .error e s' ∧ e.isResource = true ∧ s'.out = "outer\n" ∧
        Written s' (((m.withLimit 2).evaluate (call "f") .global).after s) := by
  intro log call closure s m
  have hboth : (((m.withLimit 2).evaluate (call "f") .global).after s).out = "outer\ninner\n" := by
    simp only [log, call, closure, s, m]
    decide +kernel
  have hlimit : (match (m.withLimit 1).evaluate (call "f") .global s with
      | .error e s' => e.isResource && s'.out == "outer\n"
      | .ok _ _ => false) = true := by
    simp only [log, call, closure, s, m]
    decide +kernel
  refine ⟨hboth, ?_⟩
  cases hrun : (m.withLimit 1).evaluate (call "f") .global s with
  | ok flow s' =>
    rw [hrun] at hlimit
    cases hlimit
  | error e s' =>
    rw [hrun] at hlimit
    obtain ⟨hres, hout⟩ := Bool.and_eq_true_iff.mp hlimit
    refine ⟨e, s', rfl, hres, beq_iff_eq.mp hout, ?_⟩
    exact (evaluate_withLimit m (by decide : 1 ≤ 2) (call "f") .global s).2 e s' hrun hres

end Treewalk
