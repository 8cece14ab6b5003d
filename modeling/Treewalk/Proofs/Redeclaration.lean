/-
  Treewalk.Proofs.Redeclaration — declared names keep their values.

  A declaration checks that its name is free, evaluates the initializer and binds the name, in this
  order. `Steady` says that every binding that such a check protects is still there, with its value, unless
  it is in the scope that new scopes go by when the numbers have run out.

  Proved of every program that the parser reads, in every session that programs lead to, whether it
  runs through or fails (`bindings_settled`):
  - between any two moments of the run the bindings are steady;
  - a declaration of a taken name does nothing but fail;
  - while an initializer is evaluated, the scope it is for does not change.
  The last holds since the parser lets only expressions initialize names, and an expression binds
  nothing in a scope that was there before, whatever closures it calls.

  `unsettled_when_full`: where the numbers run out in the middle of a run, the argument of a call is overwritten by
  that of the next.
-/

import Treewalk.Proofs.Confinement
import Treewalk.Proofs.Journal
import Treewalk.Proofs.Sessions

namespace Treewalk

/-- The values that a declaration may not replace. -/
def Redeclaration.Protects : Redeclaration → Value → Prop
  | .presence, _ => True
  | .truthy, v => v.isTruthy = true

theorem Redeclaration.takes_iff (r : Redeclaration) (s : Scopes) (scope : ScopeId) (name : String) :
    r.takes s scope name = true ↔ ∃ v, s.getLocal scope name = some v ∧ r.Protects v := by
  cases r with
  | presence => simp [takes, Scopes.hasLocal, Protects, Option.isSome_iff_exists]
  | truthy => simp [takes, Scopes.hasTruthy, Protects, Option.any_eq_true]

/-! ## Steady bindings -/

/-- Protected bindings stay, but for those of a shared scope. -/
structure Steady (r : Redeclaration) (before after : Store) : Prop where
  grown : before.scopes.size ≤ after.scopes.size
  kept : ∀ i, ¬ after.scopes.Shared i → ∀ name v, before.scopes.getLocal i name = some v → r.Protects v →
    after.scopes.getLocal i name = some v

namespace Steady

variable {r : Redeclaration}

theorem refl (s : Store) : Steady r s s := ⟨Nat.le_refl _, fun _ _ _ _ h _ => h⟩

theorem trans {a b c : Store} (h₁ : Steady r a b) (h₂ : Steady r b c) : Steady r a c := by
  refine ⟨Nat.le_trans h₁.grown h₂.grown, fun i hi name v hv hp => h₂.kept i hi name v ?_ hp⟩
  exact h₁.kept i (fun hb => hi (hb.mono h₂.grown)) name v hv hp

/-- A free name can be bound. -/
theorem bind {s : Store} {scope : ScopeId} {name : String}
    (hfree : ¬ s.scopes.Shared scope → r.takes s.scopes scope name = false) (v : Value) :
    Steady r s (s.apply (.bind scope name v)) := by
  refine ⟨s.size_le_apply _, fun i hi other u hu hp => ?_⟩
  simp only [Scopes.Shared, Store.apply, Scopes.size_set] at hi
  simp only [Store.apply, Scopes.getLocal_set]
  split
  · rename_i h
    obtain ⟨rfl, -, rfl⟩ := h
    have htaken := (r.takes_iff _ _ _).mpr ⟨u, hu, hp⟩
    rw [hfree hi] at htaken
    cases htaken
  · exact hu

theorem enter (s : Store) (c : Closure) (this : Value) (args : List Value) :
    Steady r s (s.apply (.enter c this args)) := by
  refine ⟨s.size_le_apply _, fun i hi name v hv _ => ?_⟩
  have hne : .ofIndex s.scopes.size ≠ i :=
    fun hsame => hi (s.shared_of_enter c this args (Scopes.lt_size_of_getLocal hv) hsame)
  rw [Store.getLocal_enter, if_neg hne]
  exact hv

theorem leave (s : Store) : Steady r s (s.apply .leave) := ⟨Nat.le_refl _, fun _ _ _ _ h _ => h⟩

theorem print (s : Store) (lines : List Line) : Steady r s (s.apply (.print lines)) := by
  refine ⟨s.size_le_apply _, fun i _ name v hv _ => ?_⟩
  rw [Store.apply_print_scopes]
  exact hv

end Steady

/-! ## Evaluation keeps bindings steady -/

section
variable (start : Store) (r : Redeclaration)

/-- Only well-shaped nodes are evaluated, and only closures with well-shaped bodies are around. -/
def settling : Discipline (Journal start) where
  Inv j := (World.store j).Binds (·.body.IsShaped) ∧ ∀ k, Steady r (World.store (j.upTo k)) (World.store j)
  Rel j j' := (World.store j).scopes.size ≤ (World.store j').scopes.size
  Knows _ c := c.body.IsShaped
  Fits j n scope := n.IsShaped ∧ scope.index < (World.store j).scopes.size

variable {start r}

/-- A change that keeps the bindings of the latest moment keeps those of all. -/
theorem settling_apply {j : Journal start} {c : Change} (hi : (settling start r).Inv j)
    (hb : ((World.store j).apply c).Binds (·.body.IsShaped)) (hs : Steady r (World.store j) ((World.store j).apply c)) :
    (settling start r).Inv (World.apply j c) := by
  rw [← World.store_apply] at hb hs
  refine ⟨hb, fun k => ?_⟩
  rcases j.upTo_apply c k with hk | hk
  · rw [hk]
    exact (hi.2 k).trans hs
  · rw [hk]
    exact Steady.refl _

/-- From the check of a declared name to its binding the scope stays as it is. -/
theorem declares_unchanged {m : Machine} {room : Nat} {d : Node} {scope : ScopeId} {j₀ j : Journal start} {v : Value}
    (hd : Declares m room d scope j₀ j v) (hshape : d.IsShaped) (hs : scope.index < (World.store j₀).scopes.size)
    (hshared : ¬ (World.store j).scopes.Shared scope) (name : String) : (World.store j).scopes.getLocal scope name = (World.store j₀).scopes.getLocal scope name := by
  cases hd with
  | plain => rfl
  | function => rfl
  | initialized _ _ init _ hev =>
    unfold Scopes.getLocal
    rw [(expression_spares hshape.init hev).untouched scope hs (fun h => h) hshared]

theorem settling_upheld {m : Machine} (hh : m.host.Honest) (start : Store) :
    (settling start m.options.redeclaration).Upheld m where
  refl _ := Nat.le_refl _
  trans h₁ h₂ := Nat.le_trans h₁ h₂
  knows_mono _ h := h
  fits_mono hr h := ⟨h.1, Nat.lt_of_lt_of_le h.2 hr⟩
  fits_below h hd := ⟨h.1.of_mem_inScope hd, h.2⟩
  fits_function h := h.1.body
  bound_known hi hv := hi.1 _ _ _ hv
  host ht ha hv := hh.only ht ha hv
  bind hi _ hn hg hfree hd := by
    have hfree := fun hs => (Redeclaration.takes_congr _ (declares_unchanged hd hn.1 hn.2 hs _)).trans hfree
    exact ⟨settling_apply hi (hi.1.bind hg _ _) (Steady.bind hfree _), World.size_le_apply _ _⟩
  enter hi hc ht ha := by
    refine ⟨settling_apply hi (hi.1.enter ht ha _) (Steady.enter _ _ _ _), hc, ?_⟩
    rw [World.store_apply, Store.latest_enter, Store.size_enter]
    exact Nat.lt_succ_of_le (ScopeId.index_ofIndex_le _)
  leave hi hi' hr := by
    refine ⟨settling_apply hi' hi'.1.leave (Steady.leave _), ?_, fun _ h => h⟩
    exact Nat.le_trans (World.size_le_apply _ _) (Nat.le_trans hr (World.size_le_apply _ _))
  print hi := ⟨settling_apply hi (hi.1.print _) (Steady.print _ _), World.size_le_apply _ _⟩

end

/-- At every moment, what was bound earlier is steady, and the closures around have well-shaped bodies. -/
theorem evaluate_settling {m : Machine} (hh : m.host.Honest) {start : Store} {tree : Node} {scope : ScopeId}
    (hb : start.Binds (·.body.IsShaped)) (ht : tree.IsShaped) (hs : scope.index < start.scopes.size) (k : Nat) :
    (settling start m.options.redeclaration).Inv ⟨(Action.changes start (m.evaluate tree scope)).take k⟩ := by
  refine Discipline.evaluate_always (settling_upheld hh start) tree scope ⟨hb, fun k => ?_⟩ ⟨ht, hs⟩ k
  simpa [Journal.upTo, Journal.blank] using Steady.refl _

/-- In the sessions that programs lead to, the closures around have well-shaped bodies. -/
theorem Session.Reachable.binds_shaped {s : Session} (hs : s.Reachable) (hh : s.machine.host.Honest) :
    s.store.Binds (·.body.IsShaped) ∧ ScopeId.global.index < s.store.scopes.size := by
  induction hs with
  | new m seedConsole globals hg =>
    refine ⟨(new_closureFree m seedConsole hg).mono fun _ h => h.elim, ?_⟩
    rw [(new_fresh m seedConsole globals).size]
    exact Nat.one_pos
  | @run s source tree _ hp ih =>
    have hh : s.machine.host.Honest := by simpa [Session.evaluate] using hh
    obtain ⟨hb, hsize⟩ := ih hh
    have hshape := Node.IsShaped.program (parse_isProgram hp)
    simp only [Session.evaluate, Session.perform_store]
    constructor
    · have h := evaluate_settling hh hb hshape hsize (Action.changes s.store (s.machine.evaluate tree .global)).length
      rw [List.take_length] at h
      rw [evaluate_applyAll]
      exact h.1
    · exact Nat.lt_of_lt_of_le hsize (evaluate_spares s.machine tree .global s.store).1.grown

/-! ## Taken names -/

/-- Declarations, with the names they declare. -/
inductive Node.DeclaresName : Node → String → Prop
  | var (span at_ : Span) (name : String) (init : Option Node) :
      DeclaresName (.declarator span (.ident at_ name) init) name
  | function (span at_ : Span) (name : String) (params : List Param) (body : Node) :
      DeclaresName (.function span (.ident at_ name) params body) name

section
variable {ω : Type} [World ω]

theorem check_taken (m : Machine) {scope : ScopeId} {name : String} {w : ω}
    (h : m.options.redeclaration.takes (World.store w).scopes scope name = true) (span at_ : Span)
    (run : Action ω Flow) (rest : String → Action ω Flow) :
    Action.located span (do
      let name ← Eval.nameOf (.ident at_ name) run
      Eval.checkNew m scope name
      rest name) w = .error ((EvalError.of (.duplicateDeclaration name)).orSpan span) w := by
  refine Action.located_error span ?_
  rw [Action.bind_ok (show Eval.nameOf (.ident at_ name) run w = .ok name w from rfl)]
  exact Action.bind_error (Eval.checkNew_taken m h)

/-- A declaration of a taken name fails before anything else is done. -/
theorem evaluate_taken (m : Machine) {d : Node} {name : String} (hd : d.DeclaresName name) {scope : ScopeId} {w : ω}
    (h : m.options.redeclaration.takes (World.store w).scopes scope name = true) :
    m.evaluate d scope w = .error ((EvalError.of (.duplicateDeclaration name)).orSpan d.span) w := by
  unfold Machine.evaluate
  cases hd with
  | var span at_ name init =>
    cases init with
    | none =>
      rw [Eval.eval]
      exact check_taken m h span at_ _ _
    | some init =>
      rw [Eval.eval]
      exact check_taken m h span at_ _ _
  | function span at_ name params body =>
    rw [Eval.eval]
    exact check_taken m h span at_ _ _

end

/-- While an expression is evaluated, no scope that was there before changes, unless it is shared. -/
theorem expression_unchanged (m : Machine) {e : Node} (he : e.IsExpression) (start : Store) (scope : ScopeId)
    {i : ScopeId} (hi : i.index < start.scopes.size) (k : Nat)
    (hshared : ¬ (start.applyAll ((Action.changes start (m.evaluate e scope)).take k)).scopes.Shared i) (name : String) :
    (start.applyAll ((Action.changes start (m.evaluate e scope)).take k)).scopes.getLocal i name =
      start.scopes.getLocal i name := by
  have h := Discipline.evaluate_always (sparing_upheld (Journal start) (fun _ => False) start m) e scope
    (Spares.refl _ _) (.inl he) k
  unfold Scopes.getLocal
  rw [← Spares.untouched h i hi (fun h => h) hshared]
  rfl

/-! ## Programs in a session -/

/-- A program that runs in a session overwrites no declared binding, in whatever scope, as long as there is a
    number for every scope; and later none but those of the last scope that has a number. -/
theorem bindings_settled {s : Session} (hs : s.Reachable) (hh : s.machine.host.Honest) {source : String} {tree : Node}
    (hp : parse source = .ok tree) :
    let changes := Action.changes s.store (s.machine.evaluate tree .global)
    (s.evaluate tree).2.store = s.store.applyAll changes ∧
      (∀ k l, k ≤ l → Steady s.machine.options.redeclaration (s.store.applyAll (changes.take k))
        (s.store.applyAll (changes.take l))) ∧
      (∀ d name, d.DeclaresName name → ∀ scope (j : Journal s.store),
        s.machine.options.redeclaration.takes (World.store j).scopes scope name = true →
          s.machine.evaluate d scope j = .error ((EvalError.of (.duplicateDeclaration name)).orSpan d.span) j) ∧
      ∀ path span id init, tree.Located path (.declarator span id (some init)) →
        ∀ (t : Store) scope, scope.index < t.scopes.size → ∀ k,
          let moment := t.applyAll ((Action.changes t (s.machine.evaluate init scope)).take k)
          ¬ moment.scopes.Shared scope → ∀ name, moment.scopes.getLocal scope name = t.scopes.getLocal scope name := by
  obtain ⟨hb, hsize⟩ := hs.binds_shaped hh
  have hshape := Node.IsShaped.program (parse_isProgram hp)
  refine ⟨?_, ?_, ?_, ?_⟩
  · rw [← evaluate_applyAll]
    exact Session.perform_store s _
  · intro k l hkl
    have h := (evaluate_settling hh hb hshape hsize l).2 k
    rwa [Journal.upTo, List.take_take, Nat.min_eq_left hkl] at h
  · exact fun d name hd scope j ht => evaluate_taken s.machine hd ht
  · intro path span id init hl t scope hscope k moment hshared name
    have hinit := (hshape.of_located hl).init
    exact expression_unchanged s.machine hinit t scope hscope k hshared name

/-- A second program calls the function that the first declared, and declares the name `z` of the first again. -/
theorem bindings_settled_second_program :
    ∃ first second, parse "function f(x) \x7b var y = x; return x; \x7d var z = f(f);" = .ok first ∧
      parse "var w = f(z); var z = w;" = .ok second ∧
      let s := ((Session.new ⟨.default, Console.host, false⟩ true []).evaluate first).2
      let changes := Action.changes s.store (s.machine.evaluate second .global)
      s.Reachable ∧ s.machine.host.Honest ∧ ∀ k l, k ≤ l → Steady s.machine.options.redeclaration
        (s.store.applyAll (changes.take k)) (s.store.applyAll (changes.take l)) := by
  have hfirst : (parse "function f(x) \x7b var y = x; return x; \x7d var z = f(f);").isOk = true := by decide +kernel
  have hsecond : (parse "var w = f(z); var z = w;").isOk = true := by decide +kernel
  obtain ⟨first, h₁⟩ := exists_parse hfirst
  obtain ⟨second, h₂⟩ := exists_parse hsecond
  have hr := Session.Reachable.run (.new ⟨.default, Console.host, false⟩ true [] (by simp)) h₁
  have hh : ((Session.new ⟨.default, Console.host, false⟩ true []).evaluate first).2.machine.host.Honest := by
    rw [Session.evaluate, Session.perform_machine]
    exact Console.host_honest
  exact ⟨first, second, h₁, h₂, hr, hh, (bindings_settled hr hh h₂).2.1⟩

/-- Programs lead to a session in which one scope more can have a number of its own. There the run of a program
    that calls twice binds the parameter in that scope, and then binds it there again to another value. -/
theorem unsettled_when_full : ∃ (s : Session) (tree : Node), s.Reachable ∧ parse "g(null); g(true);" = .ok tree ∧
    s.machine = ⟨.default, Console.host, false⟩ ∧ s.store.scopes.size = ScopeId.maxIndex ∧
    let changes := Action.changes s.store (s.machine.evaluate tree .global)
    (s.store.applyAll (changes.take 1)).scopes.getLocal .last "x" = some .null ∧
      (s.store.applyAll (changes.take 3)).scopes.getLocal .last "x" = some (.bool true) := by
  obtain ⟨s, hr, hm, hdepth, hsize, ⟨c, span, p, hget, hbody, hparams, hname⟩, -⟩ :=
    Session.exists_crowded (ScopeId.maxIndex - 1)
  let firstCall : Node := .expression ⟨0, 8⟩ (.call ⟨0, 7⟩ (.ident ⟨0, 1⟩ "g") [.null ⟨2, 6⟩])
  let secondCall : Node := .expression ⟨9, 17⟩ (.call ⟨9, 16⟩ (.ident ⟨9, 10⟩ "g") [.bool ⟨11, 15⟩ true])
  have hp : parse "g(null); g(true);" = .ok (.program ⟨0, 17⟩ [firstCall, secondCall]) := by cbv
  let first : Change := .enter c .null [.null]
  let second : Change := .enter c .null [.bool true]
  let j₀ : Journal s.store := .blank s.store
  let j₁ : Journal s.store := World.apply (World.apply j₀ first) .leave
  let j₂ : Journal s.store := World.apply (World.apply j₁ second) .leave
  have hglobal : 0 < s.store.scopes.size := Scopes.lt_size_of_getLocal hget
  have hget₁ : (World.store j₁).scopes.getLocal .global "g" = some (.function c) :=
    (s.store.getLocal_enter_global c .null [.null] hglobal "g").trans hget
  have hroom : s.machine.room (World.store j₀) = 9999 + 1 := by
    show s.machine.room s.store = 10000
    rw [Machine.room, hm, hdepth]
    rfl
  have hrun : s.machine.evaluate (.program ⟨0, 17⟩ [firstCall, secondCall]) .global j₀ = .ok (.normal .undefined) j₂ := by
    have hfirst : Eval.eval s.machine (Eval.invoke s.machine (9999 + 1)) firstCall .global j₀ =
        .ok (.normal .undefined) j₁ :=
      eval_idle_call hbody (fun _ => rfl) (Scopes.get_of_getLocal hget) ⟨0, 8⟩ ⟨0, 7⟩ ⟨0, 1⟩
    have hsecond : Eval.eval s.machine (Eval.invoke s.machine (9999 + 1)) secondCall .global j₁ =
        .ok (.normal .undefined) j₂ :=
      eval_idle_call hbody (fun _ => rfl) (Scopes.get_of_getLocal hget₁) ⟨9, 17⟩ ⟨9, 16⟩ ⟨9, 10⟩
    refine evaluate_program ?_
    rw [hroom, Eval.evalEach, Action.bind_ok hfirst, Eval.evalEach, Action.bind_ok hsecond]
    rfl
  refine ⟨s, _, hr, hp, hm, hsize, ?_⟩
  rw [Action.changes, Action.after, hrun]
  constructor
  · show (s.store.apply first).scopes.getLocal .last "x" = _
    exact hname ▸ s.store.getLocal_enter_param .null hparams (by simp [hname]) .null (congrArg ScopeId.ofIndex hsize)
  · show (((s.store.apply first).apply .leave).apply second).scopes.getLocal .last "x" = _
    have hsize₁ : ((s.store.apply first).apply .leave).scopes.size = ScopeId.maxIndex + 1 :=
      (s.store.size_enter c .null [.null]).trans (congrArg (· + 1) hsize)
    exact hname ▸ Store.getLocal_enter_param _ .null hparams (by simp [hname]) (.bool true) (congrArg ScopeId.ofIndex hsize₁)

end Treewalk
