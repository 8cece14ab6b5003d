/-
  Treewalk.Proofs.Termination — every run ends.

  `Runs` gives the rules of evaluation as they are without a bound on steps: a node is evaluated by
  performing its plan, and a call runs the body of its closure, wherever that comes from, if fewer
  calls than allowed are running. Nothing in the rules says that a run ends; that there is a result
  at all is what is to be proved.

  Proved (`runs_end`): from every world, every node and every call has exactly one result by these
  rules, and it is the one that the evaluator computes. The reason is that an evaluation begins only
  evaluations of lower rank, where the rank is the room left for calls and then the size of the node.
-/

import Treewalk.Proofs.Plan

namespace Treewalk

open Plan

variable {ω : Type} [World ω] {α : Type}

/-- How an evaluation ended, and in which world. -/
abbrev Ending (ω α : Type) := EStateM.Result EvalError ω α

/-! ## Evaluation without a bound on steps -/

/-- The world in which the body of a closure runs. -/
abbrev World.entered (w : ω) (c : Closure) (this : Value) (args : List Value) : ω := World.apply w (.enter c this args)

/-- The plan of the body of a closure, in the scope of a call that begins in `w`. -/
abbrev Plan.body (m : Machine) (w : ω) (c : Closure) (this : Value) (args : List Value) : Plan Flow :=
  rule m c.body (World.store (World.entered w c this args)).scopes.latest

/-- `Runs m p w r`: performing the plan `p` from `w` ends in `r`. -/
inductive Runs (m : Machine) : {α : Type} → Plan α → ω → Ending ω α → Prop
  | done {α : Type} (a : α) (w : ω) : Runs m (.done a) w (.ok a w)
  | fail {α : Type} (e : EvalError) (w : ω) : Runs m (.fail e : Plan α) w (.error e w)
  | look {α : Type} {next : Scopes → Plan α} {w : ω} {r : Ending ω α} :
      Runs m (next (World.store w).scopes) w r → Runs m (.look next) w r
  | declare {α : Type} {scope : ScopeId} {name : String} {value : Value} {next : Plan α} {w : ω} {r : Ending ω α} :
      Runs m next (World.apply w (.bind scope name value)) r → Runs m (.declare scope name value next) w r
  | print {α : Type} {lines : List Line} {next : Plan α} {w : ω} {r : Ending ω α} :
      Runs m next (World.apply w (.print lines)) r → Runs m (.print lines next) w r
  | node {α : Type} {place : Option Span} {n : Node} {scope : ScopeId} {next : Flow → Plan α} {w w₁ : ω}
      {flow : Flow} {r : Ending ω α} :
      Runs m (rule m n scope) w (.ok flow w₁) → Runs m (next flow) w₁ r → Runs m (.node place n scope next) w r
  | nodeFails {α : Type} {place : Option Span} {n : Node} {scope : ScopeId} {next : Flow → Plan α} {w w₁ : ω}
      {e : EvalError} :
      Runs m (rule m n scope) w (.error e w₁) → Runs m (.node place n scope next) w (.error (e.placed place) w₁)
  | call {α : Type} {place : Option Span} {c : Closure} {this : Value} {args : List Value} {next : Value → Plan α}
      {w w₁ : ω} {flow : Flow} {r : Ending ω α} :
      (World.store w).depth < m.options.maxCallDepth →
      Runs m (body m w c this args) (World.entered w c this args) (.ok flow w₁) →
      Runs m (next flow.result) (World.apply w₁ .leave) r → Runs m (.call place c this args next) w r
  | callFails {α : Type} {place : Option Span} {c : Closure} {this : Value} {args : List Value}
      {next : Value → Plan α} {w w₁ : ω} {e : EvalError} :
      (World.store w).depth < m.options.maxCallDepth →
      Runs m (body m w c this args) (World.entered w c this args) (.error e w₁) →
      Runs m (.call place c this args next) w (.error (e.placed place) (World.apply w₁ .leave))
  | overflow {α : Type} {place : Option Span} {c : Closure} {this : Value} {args : List Value}
      {next : Value → Plan α} {w : ω} :
      m.options.maxCallDepth ≤ (World.store w).depth →
      Runs m (.call place c this args next) w
        (.error ((EvalError.of (.stackOverflow m.options.maxCallDepth)).placed place) w)

variable {m : Machine} {p : Plan α} {w : ω}

theorem Runs.unique {r r' : Ending ω α} (h : Runs m p w r) (h' : Runs m p w r') : r = r' := by
  induction h with
  | done a w | fail e w =>
    cases h'
    rfl
  | look _ ih | declare _ ih | print _ ih =>
    cases h' with
    | _ h₁ => exact ih h₁
  | node _ _ ihn ih =>
    cases h' with
    | node hn hr =>
      cases ihn hn
      exact ih hr
    | nodeFails hn => cases ihn hn
  | nodeFails _ ihn =>
    cases h' with
    | node hn _ => cases ihn hn
    | nodeFails hn =>
      cases ihn hn
      rfl
  | call hd _ _ ihn ih =>
    cases h' with
    | call _ hn hr =>
      cases ihn hn
      exact ih hr
    | callFails _ hn => cases ihn hn
    | overflow ho => omega
  | callFails hd _ ihn =>
    cases h' with
    | call _ hn _ => cases ihn hn
    | callFails _ hn =>
      cases ihn hn
      rfl
    | overflow ho => omega
  | overflow ho =>
    cases h' with
    | call hd _ _ => omega
    | callFails hd _ => omega
    | overflow _ => rfl

/-- The world in which an evaluation ended. -/
def Ending.world {ω α : Type} : Ending ω α → ω
  | .ok _ w => w
  | .error _ w => w

/-- The same ending, of an evaluation of the store alone. -/
def Ending.onStore : Ending ω α → Ending Store α
  | .ok a w => .ok a (World.store w)
  | .error e w => .error e (World.store w)

/-- No scope is given up in a run. -/
theorem Runs.size_le {r : Ending ω α} (h : Runs m p w r) :
    (World.store w).scopes.size ≤ (World.store r.world).scopes.size := by
  induction h with
  | done | fail | overflow => exact Nat.le_refl _
  | look _ ih => exact ih
  | declare _ ih | print _ ih => exact Nat.le_trans (World.size_le_apply _ _) ih
  | node _ _ ihn ih => exact Nat.le_trans ihn ih
  | nodeFails _ ihn => exact ihn
  | call _ _ _ ihn ih =>
    exact Nat.le_trans (World.size_le_apply _ _) (Nat.le_trans ihn (Nat.le_trans (World.size_le_apply _ _) ih))
  | callFails _ _ ihn =>
    exact Nat.le_trans (World.size_le_apply _ _) (Nat.le_trans ihn (World.size_le_apply _ _))

/-- A change of a world is the same change of its store. -/
theorem World.store_apply_eq (w : ω) (c : Change) : World.store (World.apply w c) = World.apply (World.store w) c :=
  World.store_apply w c

theorem Plan.body_store (w : ω) (c : Closure) (this : Value) (args : List Value) :
    body m (World.store w) c this args = body m w c this args := by
  show rule m c.body (World.apply (World.store w) _).scopes.latest = _
  rw [← World.store_apply_eq]

/-- What a world keeps besides its store makes no difference to a run. -/
theorem Runs.onStore {r : Ending ω α} (h : Runs m p w r) : Runs m p (World.store w) r.onStore := by
  induction h with
  | done a w => exact .done a _
  | fail e w => exact .fail e _
  | look _ ih => exact .look ih
  | declare _ ih =>
    rw [World.store_apply_eq] at ih
    exact .declare ih
  | print _ ih =>
    rw [World.store_apply_eq] at ih
    exact .print ih
  | node _ _ ihn ih => exact .node ihn ih
  | nodeFails _ ihn => exact .nodeFails ihn
  | call hd _ _ ihn ih =>
    rw [← body_store, World.entered, World.store_apply_eq] at ihn
    rw [World.store_apply_eq] at ih
    exact .call hd ihn ih
  | @callFails _ place c this args next w w₁ e hd _ ihn =>
    rw [← body_store, World.entered, World.store_apply_eq] at ihn
    show Runs m _ _ (.error _ (World.store (World.apply w₁ .leave)))
    rw [World.store_apply_eq]
    exact .callFails hd ihn
  | overflow ho => exact .overflow ho

theorem depth_entered (w : ω) (c : Closure) (this : Value) (args : List Value) :
    (World.store (World.entered w c this args)).depth = (World.store w).depth + 1 := by
  rw [World.entered, World.store_apply]
  rfl

theorem depth_leave (w : ω) : (World.store (World.apply w .leave)).depth = (World.store w).depth - 1 := by
  rw [World.store_apply]
  rfl

/-- As many calls are running after a run as before. -/
theorem Runs.depth {a : α} {w' : ω} (h : Runs m p w (.ok a w')) :
    (World.store w').depth = (World.store w).depth := by
  generalize hr : EStateM.Result.ok a w' = r at h
  induction h generalizing w' with
  | done =>
    cases hr
    rfl
  | fail | nodeFails | callFails | overflow => cases hr
  | look _ ih => exact ih hr
  | declare _ ih =>
    rw [ih hr, World.store_apply]
    rfl
  | print _ ih => rw [ih hr, World.store_apply, Store.apply_print_depth]
  | node _ _ ihn ih => rw [ih hr, ihn rfl]
  | call _ _ _ ihn ih =>
    rw [ih hr, depth_leave, ihn rfl, depth_entered]
    rfl

/-- Behind a run there is as much room for calls as before it. -/
theorem Runs.room {a : α} {w' : ω} (h : Runs m p w (.ok a w')) : m.room (World.store w') = m.room (World.store w) := by
  unfold Machine.room
  rw [h.depth]

theorem room_entered (w : ω) (c : Closure) (this : Value) (args : List Value) :
    m.room (World.store (World.entered w c this args)) = m.room (World.store w) - 1 := by
  unfold Machine.room
  rw [depth_entered]
  omega

/-- When the body of a closure has run, there is as much room as before the call. -/
theorem Runs.room_leave {a : α} {w' : ω} {c : Closure} {this : Value} {args : List Value}
    (h : Runs m p (World.entered w c this args) (.ok a w')) :
    m.room (World.store (World.apply w' .leave)) = m.room (World.store w) := by
  unfold Machine.room
  rw [depth_leave, h.depth, depth_entered]
  rfl

/-! ## The evaluator computes a run -/

section
variable {room : Nat} {c : Closure} {this : Value} {args : List Value} {w₁ : ω}

theorem invoke_ok {flow : Flow}
    (h : Eval.eval m (Eval.invoke m room) c.body (World.store (World.entered w c this args)).scopes.latest
      (World.entered w c this args) = .ok flow w₁) :
    Eval.invoke m (room + 1) c this args w = .ok flow.result (World.apply w₁ .leave) := by
  rw [Eval.invoke_succ, Action.bind_ok (Action.leaving_ok h)]
  rfl

theorem invoke_error {e : EvalError}
    (h : Eval.eval m (Eval.invoke m room) c.body (World.store (World.entered w c this args)).scopes.latest
      (World.entered w c this args) = .error e w₁) :
    Eval.invoke m (room + 1) c this args w = .error e (World.apply w₁ .leave) := by
  rw [Eval.invoke_succ, Action.bind_error (Action.leaving_error h)]

end

/-- If the evaluator computes runs of the smaller nodes, and of all nodes inside one more call, then
    it computes runs of plans. -/
theorem runs_perform {room k : Nat}
    (hnode : ∀ (n : Node) (scope : ScopeId) (w : ω), n.size < k → m.room (World.store w) = room →
      Runs m (rule m n scope) w (Eval.eval m (Eval.invoke m room) n scope w))
    (hbody : ∀ (n : Node) (scope : ScopeId) (w : ω) (r : Nat), room = r + 1 → m.room (World.store w) = r →
      Runs m (rule m n scope) w (Eval.eval m (Eval.invoke m r) n scope w))
    (hp : p.Within k) (hw : m.room (World.store w) = room) : Runs m p w (perform m (Eval.invoke m room) p w) := by
  induction p generalizing w with
  | done a => exact .done a w
  | fail e => exact .fail e w
  | look next ih => exact .look (ih _ (hp _) hw)
  | declare scope name value next ih =>
    refine .declare (ih hp ?_)
    rw [World.store_apply]
    exact hw
  | print lines next ih =>
    refine .print (ih hp ?_)
    rw [World.store_apply, Machine.room, Store.apply_print_depth]
    exact hw
  | node place n scope next ih =>
    have hn := hnode n scope w hp.1 hw
    cases he : Eval.eval m (Eval.invoke m room) n scope w with
    | error e w₁ =>
      rw [he] at hn
      rw [perform_node_error he]
      exact .nodeFails hn
    | ok flow w₁ =>
      rw [he] at hn
      rw [perform_node_ok he]
      exact .node hn (ih flow (hp.2 flow) (hn.room.trans hw))
  | call place c this args next ih =>
    -- The room is used up exactly when as many calls are running as are allowed.
    cases room with
    | zero =>
      have hfull : m.options.maxCallDepth ≤ (World.store w).depth := by
        unfold Machine.room at hw
        omega
      rw [perform_call_error rfl]
      exact .overflow hfull
    | succ r =>
      have hfree : (World.store w).depth < m.options.maxCallDepth := by
        unfold Machine.room at hw
        omega
      have hroom : m.room (World.store (World.entered w c this args)) = r := by
        rw [room_entered, hw]
        rfl
      have hn := hbody c.body (World.store (World.entered w c this args)).scopes.latest _ r rfl hroom
      cases he : Eval.eval m (Eval.invoke m r) c.body (World.store (World.entered w c this args)).scopes.latest
          (World.entered w c this args) with
      | error e w₁ =>
        rw [he] at hn
        rw [perform_call_error (invoke_error he)]
        exact .callFails hfree hn
      | ok flow w₁ =>
        rw [he] at hn
        rw [perform_call_ok (invoke_ok he)]
        exact .call hfree hn (ih _ (hp _) (hn.room_leave.trans hw))

/-- By induction on the room for calls and, for the same room, on the size of the node. -/
theorem runs_eval (room : Nat) (n : Node) (scope : ScopeId) (w : ω) (hw : m.room (World.store w) = room) :
    Runs m (rule m n scope) w (Eval.eval m (Eval.invoke m room) n scope w) := by
  induction room using Nat.strongRecOn generalizing n scope w with
  | ind room ihroom =>
    induction hk : n.size using Nat.strongRecOn generalizing n scope w with
    | ind k ihsize =>
      subst hk
      rw [← perform_rule]
      refine runs_perform (fun d scope w hd hw => ?_) (fun d scope w r hr hw => ?_) (rule_within m n scope) hw
      · exact ihsize d.size hd d scope w hw rfl
      · exact ihroom r (by omega) d scope w hw

/-- A call asks for no node itself: only the body of its closure is evaluated. -/
theorem runs_call (f this : Value) (args : List Value) (w : ω) :
    Runs m (callValue m f this args) w (m.call f this args w) := by
  unfold Machine.call
  rw [← perform_callValue]
  have hwithin : (callValue m f this args).Within 0 := within_callValue m f this args
  refine runs_perform (fun d scope w hd _ => ?_) (fun d scope w r _ hw => ?_) hwithin rfl
  · exact absurd hd (Nat.not_lt_zero _)
  · exact runs_eval r d scope w hw

/-- Whatever else a world keeps, evaluation does to its store what it does to the store alone. -/
theorem evaluate_store (m : Machine) (n : Node) (scope : ScopeId) (w : ω) :
    m.evaluate n scope (World.store w) = Ending.onStore (m.evaluate n scope w) := by
  have hrun : Runs m (rule m n scope) w (m.evaluate n scope w) := runs_eval _ n scope w rfl
  exact (runs_eval _ n scope (World.store w) rfl).unique hrun.onStore

/-! ## What an evaluation begins -/

/-- A node to be evaluated in a scope, and the world when its evaluation begins. -/
structure Job (ω : Type) where
  node : Node
  scope : ScopeId
  world : ω

/-- `Starts m p w j`: performing the plan `p` from `w` comes to begin the evaluation `j`. -/
inductive Starts (m : Machine) : {α : Type} → Plan α → ω → Job ω → Prop
  | look {α : Type} {next : Scopes → Plan α} {w : ω} {j : Job ω} :
      Starts m (next (World.store w).scopes) w j → Starts m (.look next) w j
  | declare {α : Type} {scope : ScopeId} {name : String} {value : Value} {next : Plan α} {w : ω} {j : Job ω} :
      Starts m next (World.apply w (.bind scope name value)) j → Starts m (.declare scope name value next) w j
  | print {α : Type} {lines : List Line} {next : Plan α} {w : ω} {j : Job ω} :
      Starts m next (World.apply w (.print lines)) j → Starts m (.print lines next) w j
  | node {α : Type} {place : Option Span} {n : Node} {scope : ScopeId} {next : Flow → Plan α} {w : ω} :
      Starts m (.node place n scope next) w ⟨n, scope, w⟩
  | afterNode {α : Type} {place : Option Span} {n : Node} {scope : ScopeId} {next : Flow → Plan α} {w w₁ : ω}
      {flow : Flow} {j : Job ω} :
      Runs m (rule m n scope) w (.ok flow w₁) → Starts m (next flow) w₁ j → Starts m (.node place n scope next) w j
  | body {α : Type} {place : Option Span} {c : Closure} {this : Value} {args : List Value} {next : Value → Plan α}
      {w : ω} :
      (World.store w).depth < m.options.maxCallDepth →
      Starts m (.call place c this args next) w
        ⟨c.body, (World.store (World.entered w c this args)).scopes.latest, World.entered w c this args⟩
  | afterCall {α : Type} {place : Option Span} {c : Closure} {this : Value} {args : List Value} {next : Value → Plan α}
      {w w₁ : ω} {flow : Flow} {j : Job ω} :
      Runs m (body m w c this args) (World.entered w c this args) (.ok flow w₁) →
      Starts m (next flow.result) (World.apply w₁ .leave) j → Starts m (.call place c this args next) w j

/-- The room left for calls, and then the size of the node. -/
def Job.rank (m : Machine) (j : Job ω) : Nat × Nat := (m.room (World.store j.world), j.node.size)

/-- What the plan of a node begins. -/
def Job.Begins (m : Machine) (j j' : Job ω) : Prop := Starts m (rule m j.node j.scope) j.world j'

/-- A node is smaller than the one that asks for it, and a body runs with less room for calls. -/
theorem Starts.rank_lt {j : Job ω} (h : Starts m p w j) {k : Nat} (hp : p.Within k) :
    Prod.Lex (· < ·) (· < ·) (j.rank m) (m.room (World.store w), k) := by
  induction h with
  | look _ ih => exact ih (hp _)
  | declare _ ih =>
    have := ih hp
    rwa [World.store_apply] at this
  | print _ ih =>
    have := ih hp
    rwa [World.store_apply, Machine.room, Store.apply_print_depth] at this
  | node => exact .right _ hp.1
  | afterNode hn _ ih =>
    rw [← hn.room]
    exact ih (hp.2 _)
  | body hd =>
    refine .left _ _ ?_
    rw [room_entered]
    unfold Machine.room
    omega
  | afterCall hn _ ih =>
    rw [← hn.room_leave]
    exact ih (hp _)

theorem Job.Begins.rank_lt {j j' : Job ω} (h : j.Begins m j') :
    Prod.Lex (· < ·) (· < ·) (j'.rank m) (j.rank m) :=
  Starts.rank_lt h (rule_within m j.node j.scope)

/-- Every node and every call has exactly one result, the one that the evaluator computes, and no
    evaluation has others begun inside it without end, for their ranks decrease. -/
theorem runs_end (m : Machine) (w : ω) :
    (∀ n scope r, Runs m (rule m n scope) w r ↔ r = m.evaluate n scope w) ∧
    (∀ f this args r, Runs m (callValue m f this args) w r ↔ r = m.call f this args w) ∧
    (∀ j j' : Job ω, j.Begins m j' → Prod.Lex (· < ·) (· < ·) (j'.rank m) (j.rank m)) ∧
    (∀ f this args j, Starts m (callValue m f this args) w j → (j.rank m).1 < m.room (World.store w)) ∧
    WellFounded fun j' j : Job ω => j.Begins m j' := by
  refine ⟨fun n scope r => ?_, fun f this args r => ?_, fun j j' h => h.rank_lt, fun f this args j h => ?_, ?_⟩
  · have hrun := runs_eval (m := m) _ n scope w rfl
    exact ⟨fun h => h.unique hrun, fun h => h ▸ hrun⟩
  · have hrun := runs_call (m := m) f this args w
    exact ⟨fun h => h.unique hrun, fun h => h ▸ hrun⟩
  · have hlt := h.rank_lt (within_callValue (k := 0) m f this args)
    rcases Prod.lex_def.mp hlt with hroom | ⟨_, hsize⟩
    · exact hroom
    · exact absurd hsize (Nat.not_lt_zero _)
  · have hlex : WellFounded (Prod.Lex (· < ·) (· < ·) : Nat × Nat → Nat × Nat → Prop) :=
      (Prod.lex ⟨_, Nat.lt_wfRel.wf⟩ ⟨_, Nat.lt_wfRel.wf⟩).wf
    exact Subrelation.wf (fun h => h.rank_lt) (InvImage.wf (Job.rank m) hlex)

end Treewalk
