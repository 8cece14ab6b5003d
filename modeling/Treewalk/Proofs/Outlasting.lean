/-
  Treewalk.Proofs.Outlasting — two runs of which one may stop earlier than the other.

  Two machines that differ in when they stop go through plans that differ in nothing else
  (`Plan.Curtails`). As long as the first does not stop they do the same. Where it stops, it leaves
  all that it wrote so far, and the other goes on from there and only adds to it. `Outlasts a b s`
  says this of two actions.

  Proved: what holds of the plans of nodes, and of calls there is no room for, holds of every
  evaluation (`Outlasts.eval`) and every call (`Outlasts.invoke`).
-/

import Treewalk.Proofs.Confinement
import Treewalk.Proofs.Plan

namespace Treewalk

/-! ## Texts that grow -/

/-- All that was written in `s` is still there in `t`, and what follows it was written since. -/
structure Written (s t : Store) : Prop where
  out : ∃ text, t.out = s.out ++ text
  err : ∃ text, t.err = s.err ++ text

theorem Spares.written {touched : ScopeId → Prop} {s t : Store} (h : Spares touched s t) : Written s t :=
  ⟨h.out, h.err⟩

namespace Written

theorem refl (s : Store) : Written s s := (Spares.refl (fun _ => True) s).written

theorem trans {s t u : Store} (h₁ : Written s t) (h₂ : Written t u) : Written s u := by
  obtain ⟨⟨out₁, ho₁⟩, err₁, he₁⟩ := h₁
  obtain ⟨⟨out₂, ho₂⟩, err₂, he₂⟩ := h₂
  constructor
  · exact ⟨out₁ ++ out₂, by rw [ho₂, ho₁, String.append_assoc]⟩
  · exact ⟨err₁ ++ err₂, by rw [he₂, he₁, String.append_assoc]⟩

theorem bind (s : Store) (scope : ScopeId) (name : String) (v : Value) : Written s (s.apply (.bind scope name v)) :=
  ⟨(refl s).out, (refl s).err⟩

theorem print (s : Store) (lines : List Line) : Written s (s.apply (.print lines)) :=
  ((Spares.refl (fun _ => True) s).print lines).written

end Written

section
variable {α β : Type} {a : Action Store α} {s : Store}

theorem after_ok {v : α} {s' : Store} (h : a s = .ok v s') : a.after s = s' := by
  simp only [Action.after, h]

theorem after_error {e : EvalError} {s' : Store} (h : a s = .error e s') : a.after s = s' := by
  simp only [Action.after, h]

theorem after_mapError (f : EvalError → EvalError) : (a.mapError f).after s = a.after s := by
  unfold Action.after Action.mapError
  cases a s <;> rfl

/-- An action that goes on after another keeps what that wrote. -/
theorem written_after_bind {f : α → Action Store β} (hf : ∀ v s, Written s ((f v).after s)) :
    Written (a.after s) ((a >>= f).after s) := by
  cases h : a s with
  | error e s' =>
    rw [after_error h, after_error (Action.bind_error h)]
    exact .refl s'
  | ok v s' =>
    have hbind : (a >>= f).after s = (f v).after s' := by
      unfold Action.after
      rw [Action.bind_ok h]
    rw [after_ok h, hbind]
    exact hf v s'

variable (m : Machine) (room : Nat)

theorem written_eval (n : Node) (scope : ScopeId) (s : Store) :
    Written s ((Eval.eval m (Eval.invoke m room) n scope).after s) := by
  have hd := sparing_upheld Store (fun _ => True) s m
  have hk := Discipline.keeps_eval hd (Discipline.invokes_invoke hd room) n scope (Spares.refl _ s) (.inr (.inl trivial))
  exact hk.after.1.written

theorem written_invoke (c : Closure) (this : Value) (args : List Value) (s : Store) :
    Written s ((Eval.invoke m room c this args).after s) := by
  have hd := sparing_upheld Store (fun _ => True) s m
  have hk : Discipline.Keeps _ s (Eval.invoke m room c this args) _ :=
    Discipline.invokes_invoke hd room (Spares.refl _ s) trivial (fun _ _ => trivial) fun _ _ _ _ => trivial
  exact hk.after.1.written

theorem written_perform (p : Plan α) (s : Store) : Written s ((Plan.perform m (Eval.invoke m room) p).after s) := by
  induction p generalizing s with
  | done a => exact .refl s
  | fail e => exact .refl s
  | look next ih => exact ih _ s
  | declare scope name value next ih => exact (Written.bind s scope name value).trans (ih _)
  | print lines next ih => exact (Written.print s lines).trans (ih _)
  | node place n scope next ih =>
    have hn := written_eval m room n scope s
    rw [← after_mapError (·.placed place)] at hn
    exact hn.trans (written_after_bind ih)
  | call place c this args next ih =>
    have hc := written_invoke m room c this args s
    rw [← after_mapError (·.placed place)] at hc
    exact hc.trans (written_after_bind ih)

end

/-! ## Going on where the other stopped -/

/-- Started in `s`, both actions end the same way, or the first stops with an error of the kind
    `stops` and the second has written all that the first has. -/
def Outlasts {α : Type} (stops : EvalError → Bool) (a b : Action Store α) (s : Store) : Prop :=
  a s = b s ∨ ∃ e s', a s = .error e s' ∧ stops e = true ∧ Written s' (b.after s)

namespace Outlasts
variable {α β : Type} {stops : EvalError → Bool} {a b : Action Store α} {s : Store}

theorem placed (hstops : ∀ e place, stops (e.placed place) = stops e) (h : Outlasts stops a b s)
    (place : Option Span) : Outlasts stops (a.mapError (·.placed place)) (b.mapError (·.placed place)) s := by
  rcases h with h | ⟨e, s', ha, he, hw⟩
  · left
    simp only [Action.mapError, h]
  · right
    refine ⟨e.placed place, s', ?_, (hstops e place).trans he, ?_⟩
    · simp only [Action.mapError, ha]
    · rw [after_mapError]
      exact hw

/-- One after another: where the first of them stops, the rest of the other only adds. -/
theorem bind {f g : α → Action Store β} (h : Outlasts stops a b s) (hfg : ∀ v s, Outlasts stops (f v) (g v) s)
    (hg : ∀ v s, Written s ((g v).after s)) : Outlasts stops (a >>= f) (b >>= g) s := by
  rcases h with h | ⟨e, s', ha, he, hw⟩
  · cases hb : b s with
    | error e s' =>
      left
      rw [Action.bind_error (h.trans hb), Action.bind_error hb]
    | ok v s' =>
      have hafter : (b >>= g).after s = (g v).after s' := by
        unfold Action.after
        rw [Action.bind_ok hb]
      unfold Outlasts
      rw [Action.bind_ok (h.trans hb), Action.bind_ok hb, hafter]
      exact hfg v s'
  · exact .inr ⟨e, s', Action.bind_error ha, he, hw.trans (written_after_bind hg)⟩

theorem leaving (h : Outlasts stops a b s) : Outlasts stops a.leaving b.leaving s := by
  rcases h with h | ⟨e, s', ha, he, hw⟩
  · left
    simp only [Action.leaving, h]
  · right
    refine ⟨e, s'.apply .leave, Action.leaving_error ha, he, ?_⟩
    cases hb : b s with
    | error e₂ t =>
      rw [after_error hb] at hw
      rw [after_error (Action.leaving_error hb)]
      exact ⟨hw.out, hw.err⟩
    | ok v t =>
      rw [after_ok hb] at hw
      rw [after_ok (Action.leaving_ok hb)]
      exact ⟨hw.out, hw.err⟩

end Outlasts

/-! ## Plans of which one stops earlier -/

namespace Plan

variable {α β : Type} {stops : EvalError → Bool}

/-- Both plans go the same way, except that the first may stop with an error of the kind `stops`
    where the second goes on. -/
inductive Curtails (stops : EvalError → Bool) : Plan α → Plan α → Prop where
  | stop {e : EvalError} (h : stops e = true) (q : Plan α) : Curtails stops (.fail e) q
  | done (a : α) : Curtails stops (.done a) (.done a)
  | fail (e : EvalError) : Curtails stops (.fail e) (.fail e)
  | look {p q : Scopes → Plan α} (next : ∀ s, Curtails stops (p s) (q s)) : Curtails stops (.look p) (.look q)
  | declare (scope : ScopeId) (name : String) (value : Value) {p q : Plan α} (next : Curtails stops p q) :
      Curtails stops (.declare scope name value p) (.declare scope name value q)
  | print (lines : List Line) {p q : Plan α} (next : Curtails stops p q) :
      Curtails stops (.print lines p) (.print lines q)
  | node (place : Option Span) (n : Node) (scope : ScopeId) {p q : Flow → Plan α}
      (next : ∀ flow, Curtails stops (p flow) (q flow)) : Curtails stops (.node place n scope p) (.node place n scope q)
  | call (place : Option Span) (c : Closure) (this : Value) (args : List Value) {p q : Value → Plan α}
      (next : ∀ v, Curtails stops (p v) (q v)) : Curtails stops (.call place c this args p) (.call place c this args q)

namespace Curtails

theorem refl (p : Plan α) : Curtails stops p p := by
  induction p with
  | done a => exact .done a
  | fail e => exact .fail e
  | look next ih => exact .look ih
  | declare scope name value next ih => exact .declare scope name value ih
  | print lines next ih => exact .print lines ih
  | node place n scope next ih => exact .node place n scope ih
  | call place c this args next ih => exact .call place c this args ih

theorem bind {p q : Plan α} {f g : α → Plan β} (h : Curtails stops p q) (hfg : ∀ a, Curtails stops (f a) (g a)) :
    Curtails stops (p >>= f) (q >>= g) := by
  show Curtails stops (p.bind f) (q.bind g)
  induction h with
  | stop h q => exact .stop h (q.bind g)
  | done a => exact hfg a
  | fail e => exact .fail e
  | look next ih => exact .look ih
  | declare scope name value next ih => exact .declare scope name value ih
  | print lines next ih => exact .print lines ih
  | node place n scope next ih => exact .node place n scope ih
  | call place c this args next ih => exact .call place c this args ih

theorem located (hstops : ∀ e place, stops (e.placed place) = stops e) {p q : Plan α} (h : Curtails stops p q)
    (span : Span) : Curtails stops (p.located span) (q.located span) := by
  induction h with
  | @stop e h q => exact .stop ((hstops e (some span)).trans h) (q.located span)
  | done a => exact .done a
  | fail e => exact .fail (e.orSpan span)
  | look next ih => exact .look ih
  | declare scope name value next ih => exact .declare scope name value ih
  | print lines next ih => exact .print lines ih
  | node place n scope next ih => exact .node (some (place.getD span)) n scope ih
  | call place c this args next ih => exact .call (some (place.getD span)) c this args ih

end Curtails

end Plan

/-! ## Two machines -/

namespace Outlasts

variable {α : Type} {stops : EvalError → Bool} {m₁ m₂ : Machine} {r₁ r₂ : Nat}

/-- If requests are answered so that the second outlasts the first, so are plans performed. -/
theorem perform (hstops : ∀ e place, stops (e.placed place) = stops e) {size : Nat}
    (hnode : ∀ n scope s, n.size < size →
      Outlasts stops (Eval.eval m₁ (Eval.invoke m₁ r₁) n scope) (Eval.eval m₂ (Eval.invoke m₂ r₂) n scope) s)
    (hcall : ∀ c this args s, Outlasts stops (Eval.invoke m₁ r₁ c this args) (Eval.invoke m₂ r₂ c this args) s)
    {p q : Plan α} (h : p.Curtails stops q) (hp : p.Within size) (s : Store) :
    Outlasts stops (Plan.perform m₁ (Eval.invoke m₁ r₁) p) (Plan.perform m₂ (Eval.invoke m₂ r₂) q) s := by
  induction h generalizing s with
  | stop h q => exact .inr ⟨_, s, rfl, h, written_perform m₂ r₂ q s⟩
  | done a => exact .inl rfl
  | fail e => exact .inl rfl
  | look next ih => exact ih _ (hp _) s
  | declare scope name value next ih => exact ih hp _
  | print lines next ih => exact ih hp _
  -- The same answer in the same store, and both go on alike; or the first stopped, and what the
  -- second still does only adds text.
  | @node place n scope p q next ih =>
    refine ((hnode n scope s hp.1).placed hstops place).bind (fun flow s => ih flow (hp.2 flow) s) fun flow s => ?_
    exact written_perform m₂ r₂ (q flow) s
  | @call place c this args p q next ih =>
    refine ((hcall c this args s).placed hstops place).bind (fun v s => ih v (hp v) s) fun v s => ?_
    exact written_perform m₂ r₂ (q v) s

/-- By induction on the size of the node, given how calls compare. -/
theorem eval (hstops : ∀ e place, stops (e.placed place) = stops e)
    (hrule : ∀ n scope, (Plan.rule m₁ n scope).Curtails stops (Plan.rule m₂ n scope))
    (hcall : ∀ c this args s, Outlasts stops (Eval.invoke m₁ r₁ c this args) (Eval.invoke m₂ r₂ c this args) s)
    (n : Node) (scope : ScopeId) (s : Store) :
    Outlasts stops (Eval.eval m₁ (Eval.invoke m₁ r₁) n scope) (Eval.eval m₂ (Eval.invoke m₂ r₂) n scope) s := by
  induction hk : n.size using Nat.strongRecOn generalizing n scope s with
  | ind size ih =>
    subst hk
    rw [← Plan.perform_rule, ← Plan.perform_rule]
    refine perform hstops (fun d scope s hd => ?_) hcall (hrule n scope) (Plan.rule_within m₁ n scope) s
    exact ih d.size hd d scope s rfl

/-- By induction on the room of the first, given how calls compare that find it used up. -/
theorem invoke (hstops : ∀ e place, stops (e.placed place) = stops e)
    (hrule : ∀ n scope, (Plan.rule m₁ n scope).Curtails stops (Plan.rule m₂ n scope)) (more : Nat)
    (hlimit : ∀ c this args s, Outlasts stops (Eval.invoke m₁ 0 c this args) (Eval.invoke m₂ more c this args) s)
    (room : Nat) (c : Closure) (this : Value) (args : List Value) (s : Store) :
    Outlasts stops (Eval.invoke m₁ room c this args) (Eval.invoke m₂ (more + room) c this args) s := by
  induction room generalizing c this args s with
  | zero => exact hlimit c this args s
  | succ room ih =>
    have hbody := eval hstops hrule ih c.body (s.apply (.enter c this args)).scopes.latest (s.apply (.enter c this args))
    have hresult : ∀ flow s, Outlasts stops (pure (Flow.result flow)) (pure flow.result) s := fun _ _ => .inl rfl
    have hcall := hbody.leaving.bind hresult fun _ s => .refl s
    unfold Outlasts Action.after at hcall ⊢
    rw [← Nat.add_assoc, Eval.invoke_succ, Eval.invoke_succ]
    exact hcall

end Outlasts

end Treewalk
