/-
  Treewalk.Proofs.Rewriting.Evaluation — rewritten trees run alike.

  Two evaluations `Agree` if from matching stores they end alike: both with results that go together
  or both with matching errors, and with stores that match.

  Proved: a tree and what it is rewritten to agree (`agrees_evaluate`), by induction on how it was
  rewritten, and on the room for calls around that.
-/

import Treewalk.Proofs.Rewriting.Stores

namespace Treewalk

/-- A statement that does not return may have any value. -/
inductive Flow.Matches (L : Licence) : Place → Flow → Flow → Prop
  | normal {p : Place} {v u : Value} : v.Matches L u → Matches L p (.normal v) (.normal u)
  | dropped {v u : Value} : Matches L .statement (.normal v) (.normal u)
  | returned {p : Place} {v u : Value} : v.Matches L u → Matches L p (.returned v) (.returned u)

/-- Two evaluations ended alike, with results that `Q` relates or with matching errors. -/
inductive Ends (L : Licence) {α β : Type} (Q : α → β → Prop) :
    EStateM.Result EvalError Store α → EStateM.Result EvalError Store β → Prop
  | ok {a : α} {b : β} {s t : Store} : Q a b → s.Matches L t → Ends L Q (.ok a s) (.ok b t)
  | error {e f : EvalError} {s t : Store} : e.Matches L f → s.Matches L t → Ends L Q (.error e s) (.error f t)

/-- From matching stores the actions end alike. -/
def Agrees (L : Licence) {α β : Type} (Q : α → β → Prop) (a : Action Store α) (b : Action Store β) : Prop :=
  ∀ s t : Store, s.Matches L t → Ends L Q (a s) (b t)

section
variable {L : Licence}

namespace Flow

theorem Matches.value {p : Place} {f g : Flow} (h : f.Matches L p g) (hp : p ≠ .statement) : f.value.Matches L g.value := by
  cases h with
  | normal hv | returned hv => exact hv
  | dropped => exact absurd rfl hp

theorem Matches.at {p q : Place} {f g : Flow} (h : f.Matches L p g) (hp : p ≠ .statement) : f.Matches L q g := by
  cases h with
  | normal hv => exact .normal hv
  | returned hv => exact .returned hv
  | dropped => exact absurd rfl hp

/-- What a call makes of how its body completes. -/
theorem Matches.result {f g : Flow} (h : f.Matches L .statement g) : f.result.Matches L g.result := by
  cases h with
  | normal _ | dropped => exact .undefined
  | returned hv => exact hv

end Flow

/-! ## Actions -/

section
variable {α β α' β' : Type} {P : α → β → Prop} {Q : α' → β' → Prop} {a : Action Store α} {b : Action Store β}

theorem agrees_pure {x : α} {y : β} (h : P x y) : Agrees L P (pure x) (pure y) := fun _ _ hs => .ok h hs

theorem agrees_throw {e f : EvalError} (h : e.Matches L f) : Agrees L P (throw e) (throw f) := fun _ _ hs => .error h hs

theorem agrees_fail (cause : Cause) : Agrees L P (Action.fail cause) (Action.fail cause) :=
  agrees_throw ⟨.inl rfl, .none, rfl⟩

theorem Agrees.mono {P' : α → β → Prop} (h : Agrees L P a b) (hP : ∀ x y, P x y → P' x y) : Agrees L P' a b := by
  intro s t hs
  cases ha : a s <;> cases hb : b t <;> have hab := h s t hs <;> rw [ha, hb] at hab <;> cases hab
  · exact .ok (hP _ _ ‹_›) ‹_›
  · exact .error ‹_› ‹_›

theorem agrees_bind {f : α → Action Store α'} {g : β → Action Store β'} (h : Agrees L P a b)
    (hf : ∀ x y, P x y → Agrees L Q (f x) (g y)) : Agrees L Q (a >>= f) (b >>= g) := by
  intro s t hs
  have hab := h s t hs
  cases ha : a s <;> cases hb : b t <;> rw [ha, hb] at hab <;> cases hab
  · rw [Action.bind_ok ha, Action.bind_ok hb]
    exact hf _ _ ‹_› _ _ ‹_›
  · rw [Action.bind_error ha, Action.bind_error hb]
    exact .error ‹_› ‹_›

theorem EvalError.Matches.orSpan {e f : EvalError} {s s' : Span} (h : e.Matches L f) (hs : L.moves s s') :
    (e.orSpan s).Matches L (f.orSpan s') where
  cause := h.cause
  span := by
    have hspan := h.span
    unfold EvalError.orSpan
    generalize e.span = o at hspan ⊢
    generalize f.span = o' at hspan ⊢
    cases hspan with
    | none => exact .some hs
    | some hmoves => exact .some hmoves
  notes := h.notes

theorem agrees_located {s s' : Span} (hs : L.moves s s') (h : Agrees L P a b) :
    Agrees L P (a.located s) (b.located s') := by
  intro s₁ s₂ hr
  have hab := h s₁ s₂ hr
  cases ha : a s₁ <;> cases hb : b s₂ <;> rw [ha, hb] at hab <;> cases hab
  · rw [Action.located_ok _ ha, Action.located_ok _ hb]
    exact .ok ‹_› ‹_›
  · rw [Action.located_error _ ha, Action.located_error _ hb]
    rename_i he hr'
    exact .error (he.orSpan hs) hr'

theorem agrees_leaving (h : Agrees L P a b) : Agrees L P a.leaving b.leaving := by
  intro s t hs
  have hab := h s t hs
  cases ha : a s <;> cases hb : b t <;> rw [ha, hb] at hab <;> cases hab
  · rename_i hp hr
    rw [Action.leaving_ok ha, Action.leaving_ok hb]
    exact .ok hp hr.leave
  · rename_i he hr
    rw [Action.leaving_error ha, Action.leaving_error hb]
    exact .error he hr.leave

end

theorem agrees_lookup (scope : ScopeId) (name : String) :
    Agrees L (Value.Matches L) (Action.lookup scope name) (Action.lookup scope name) :=
  fun _ _ hs => .ok (hs.get scope name) hs

theorem agrees_declare (scope : ScopeId) (name : String) {v u : Value} (hv : v.Matches L u) :
    Agrees L (fun _ _ => True) (Action.declare scope name v) (Action.declare scope name u) :=
  fun _ _ hs => .ok trivial (hs.bind scope name hv)

theorem agrees_print (lines : List Line) : Agrees L (fun _ _ => True) (Action.print lines) (Action.print lines) :=
  fun _ _ hs => .ok trivial (hs.print lines)

theorem agrees_checkNew (m : Machine) (scope : ScopeId) (name : String) :
    Agrees L (fun _ _ => True) (Eval.checkNew m scope name) (Eval.checkNew m scope name) := by
  intro s t hs
  have htakes := hs.takes_eq m.options.redeclaration scope name
  cases ht : m.options.redeclaration.takes s.scopes scope name with
  | true =>
    rw [Eval.checkNew_taken m ht, Eval.checkNew_taken m (htakes ▸ ht)]
    exact .error ⟨.inl rfl, .none, rfl⟩ hs
  | false =>
    rw [Eval.checkNew_free m ht, Eval.checkNew_free m (htakes ▸ ht)]
    exact .ok trivial hs

theorem agrees_property {v u : Value} (h : v.Matches L u) (key : String) :
    Agrees L (Value.Matches L) (Action.ofExcept (v.property key)) (Action.ofExcept (u.property key)) := by
  rcases h.property key with ⟨w, w', hw, hw', hmatch⟩ | ⟨cause, hv, hu⟩
  · rw [hw, hw']
    exact agrees_pure hmatch
  · rw [hv, hu]
    exact agrees_fail cause

theorem agrees_apply {v v' u u' : Value} (hv : v.Matches L v') (hu : u.Matches L u') (op : BinaryOp) :
    Agrees L (Value.Matches L) (Action.ofExcept (op.apply v u)) (Action.ofExcept (op.apply v' u')) := by
  rw [← hv.apply_eq hu op]
  cases h : op.apply v u with
  | ok w => exact agrees_pure (Value.apply_matches h)
  | error cause => exact agrees_fail cause

/-! ## Operands and names -/

section
variable {m : Machine} {inv inv' : Invoke Store} {n n' : Node} {scope : ScopeId}

theorem agrees_operand (h : Rewrites L .looked n n') {run run' : Action Store Flow}
    (hrun : Agrees L (Flow.Matches L .looked) run run') :
    Agrees L (Value.Matches L) (Eval.operand n scope run) (Eval.operand n' scope run') := by
  unfold Eval.operand
  rw [← h.name?_eq]
  cases n.name? with
  | some name => exact agrees_lookup scope name
  | none => exact agrees_bind hrun fun f g hfg => agrees_pure (hfg.value (by decide))

/-- A name and the same name quoted stand for the same name. -/
theorem agrees_nameOf {p : Place} (hp : p ≠ .statement) (h : Rewrites L p n n')
    (hrun : Agrees L (Flow.Matches L p) (Eval.eval m inv n scope) (Eval.eval m inv' n' scope)) :
    Agrees L Eq (Eval.nameOf n (Eval.eval m inv n scope)) (Eval.nameOf n' (Eval.eval m inv' n' scope)) := by
  have hother : n.name? = none → n'.name? = none →
      Agrees L Eq (Eval.nameOf n (Eval.eval m inv n scope)) (Eval.nameOf n' (Eval.eval m inv' n' scope)) := by
    intro hn hn'
    unfold Eval.nameOf
    rw [hn, hn']
    exact agrees_bind hrun fun f g hfg => agrees_pure (hfg.value hp).text_eq
  cases h with
  | ident _ => exact agrees_pure rfl
  | quoted _ _ _ =>
    simp only [Eval.nameOf, Node.name?, Eval.eval]
    exact agrees_pure rfl
  | _ => exact hother rfl rfl

theorem agrees_named {α β : Type} {Q : α → β → Prop} {p : Place} (hp : p ≠ .statement) (h : Rewrites L p n n')
    (hrun : Agrees L (Flow.Matches L p) (Eval.eval m inv n scope) (Eval.eval m inv' n' scope))
    {f : String → Action Store α} {g : String → Action Store β} (hf : ∀ name, Agrees L Q (f name) (g name)) :
    Agrees L Q (Eval.nameOf n (Eval.eval m inv n scope) >>= f) (Eval.nameOf n' (Eval.eval m inv' n' scope) >>= g) :=
  agrees_bind (agrees_nameOf hp h hrun) fun name _ hname => hname ▸ hf name

end

/-! ## Calls -/

theorem Rewrites.span {p : Place} {n n' : Node} (h : Rewrites L p n n') : L.moves n.span n'.span := by
  cases h <;> assumption

/-- Calling matching functions with matching values goes alike. -/
def Invokes (L : Licence) (inv inv' : Invoke Store) : Prop :=
  ∀ {c c' : Closure} {this this' : Value} {args args' : List Value}, c.Rewrites L c' → this.Matches L this' →
    Value.MatchesAll L args args' → Agrees L (Value.Matches L) (inv c this args) (inv' c' this' args')

section
variable {m : Machine} (hm : m.host.Uniform L) {inv inv' : Invoke Store} {this this' : Value} {args args' : List Value}
include hm

theorem agrees_callHost (name : String) (ht : this.Matches L this') (ha : Value.MatchesAll L args args') :
    Agrees L (Value.Matches L) (Eval.callHost m name this args) (Eval.callHost m name this' args') := by
  obtain ⟨hlines, hresult⟩ := hm name m.options.color ht ha
  unfold Eval.callHost
  dsimp only
  rw [← hlines]
  refine agrees_bind (agrees_print _) fun _ _ _ => ?_
  rcases hresult with ⟨v, v', hv, hv', hmatch⟩ | ⟨e, e', he, he', hmatch⟩
  · rw [hv, hv']
    exact agrees_pure hmatch
  · rw [he, he']
    exact agrees_throw hmatch

theorem agrees_callValue (hinv : Invokes L inv inv') {f f' : Value} (hf : f.Matches L f') (ht : this.Matches L this')
    (ha : Value.MatchesAll L args args') :
    Agrees L (Value.Matches L) (Eval.callValue m inv f this args) (Eval.callValue m inv' f' this' args') := by
  cases hf with
  | function hc => exact hinv hc ht ha
  | native => exact agrees_callHost hm _ ht ha
  | _ => exact agrees_fail _

theorem agrees_callCallee (hinv : Invokes L inv inv') {p : Place} {callee callee' : Node}
    (hcallee : Rewrites L p callee callee') {f f' : Value} (hf : f.Matches L f') (ht : this.Matches L this')
    (ha : Value.MatchesAll L args args') :
    Agrees L (Value.Matches L) (Eval.callCallee m inv callee f this args) (Eval.callCallee m inv' callee' f' this' args') := by
  unfold Eval.callCallee
  rw [← hf.isCallable_eq]
  split
  · exact agrees_callValue hm hinv hf ht ha
  · refine agrees_throw (e := EvalError.withSpan _ _) ⟨?_, .some hcallee.span, rfl⟩
    by_cases hq : L.quotes
    · exact .inr ⟨hq, _, _, rfl, rfl⟩
    · exact .inl (congrArg Cause.notCallable (hcallee.describeCallee_eq hq))

end

/-! ## Blocks -/

section
variable (m : Machine) (inv : Invoke Store) {scope : ScopeId}

/-- What is run behind statements that did not return. -/
def following (ns : List Node) (scope : ScopeId) : Flow → Action Store Flow
  | .normal v => Eval.evalBlock m inv ns v scope
  | .returned v => pure (.returned v)

theorem evalBlock_cons (n : Node) (ns : List Node) (last : Value) (scope : ScopeId) :
    Eval.evalBlock m inv (n :: ns) last scope = Eval.eval m inv n scope >>= following m inv ns scope := by
  rw [Eval.evalBlock]
  rfl

theorem evalBlock_append (ms ns : List Node) (last : Value) (scope : ScopeId) :
    Eval.evalBlock m inv (ms ++ ns) last scope = Eval.evalBlock m inv ms last scope >>= following m inv ns scope := by
  induction ms generalizing last with
  | nil =>
    rw [Eval.evalBlock, pure_bind]
    rfl
  | cons n ms ih =>
    rw [List.cons_append, evalBlock_cons, evalBlock_cons, bind_assoc]
    congr 1
    funext flow
    cases flow with
    | normal v => exact ih v
    | returned v => rfl

/-- Errors of an action that is located have a span. -/
theorem span_of_located {α : Type} {a : Action Store α} {span : Span} {s t : Store} {e : EvalError}
    (h : a.located span s = .error e t) : e.span ≠ none := by
  cases ha : a s with
  | ok v s' =>
    rw [Action.located_ok _ ha] at h
    cases h
  | error f s' =>
    rw [Action.located_error _ ha] at h
    cases h
    simp [EvalError.orSpan]

theorem span_of_eval {n : Node} {s t : Store} {e : EvalError} (h : Eval.eval m inv n scope s = .error e t) :
    e.span ≠ none := by
  cases n with
  | declarator span id init => cases init <;> (rw [Eval.eval] at h; exact span_of_located h)
  | returning span argument =>
    cases argument with
    | none => rw [Eval.eval] at h; cases h
    | some e => rw [Eval.eval] at h; exact span_of_located h
  | call span f ns =>
    cases f <;> simp only [Eval.eval] at h <;> exact span_of_located h
  | empty | ident | number | string | bool | null | this => rw [Eval.eval] at h; cases h
  | _ => rw [Eval.eval] at h; exact span_of_located h

theorem span_of_evalBlock {ns : List Node} {last : Value} {s t : Store} {e : EvalError}
    (h : Eval.evalBlock m inv ns last scope s = .error e t) : e.span ≠ none := by
  induction ns generalizing last s with
  | nil =>
    rw [Eval.evalBlock] at h
    cases h
  | cons n ns ih =>
    rw [evalBlock_cons] at h
    cases hn : Eval.eval m inv n scope s with
    | error f s' =>
      rw [Action.bind_error hn] at h
      cases h
      exact span_of_eval m inv hn
    | ok flow s' =>
      rw [Action.bind_ok hn] at h
      cases flow with
      | normal v => exact ih h
      | returned v => cases h

/-- A block adds nothing to its statements but a span that errors in it have already. -/
theorem eval_block (span : Span) (body : List Node) (scope : ScopeId) :
    Eval.eval m inv (.block span body) scope = Eval.evalBlock m inv body .undefined scope := by
  funext s
  rw [Eval.eval]
  cases h : Eval.evalBlock m inv body .undefined scope s with
  | ok flow t => exact Action.located_ok span h
  | error e t =>
    rw [Action.located_error span h]
    cases hspan : e.span with
    | none => exact absurd hspan (span_of_evalBlock m inv h)
    | some place => rw [EvalError.orSpan, hspan, Option.getD_some, ← hspan]

theorem evalBlock_splice (span : Span) (body ns : List Node) (last : Value) (scope : ScopeId) :
    Eval.evalBlock m inv (.block span body :: ns) last scope = Eval.evalBlock m inv (body ++ ns) .undefined scope := by
  rw [evalBlock_cons, evalBlock_append, eval_block]

end

/-! ## Nodes -/

section
variable {m : Machine} {inv inv' : Invoke Store}

/-- A call whose callee is no member access: the callee stands for a name. -/
theorem agrees_call_plain (hm : m.host.Uniform L) (hinv : Invokes L inv inv') {span span' : Span}
    (hs : L.moves span span') {f f' : Node} {ns ns' : List Node} {scope : ScopeId}
    (hplain : ∀ t o k computed, f ≠ .member t o k computed) (hf : Rewrites L .value f f')
    (hcallee : Agrees L (Flow.Matches L .value) (Eval.eval m inv f scope) (Eval.eval m inv' f' scope))
    (hargs : Agrees L (Value.MatchesAll L) (Eval.evalArguments m inv ns scope) (Eval.evalArguments m inv' ns' scope))
    (p : Place) :
    Agrees L (Flow.Matches L p) (Eval.eval m inv (.call span f ns) scope) (Eval.eval m inv' (.call span' f' ns') scope) := by
  rw [Eval.eval, Eval.eval]
  · refine agrees_located hs (agrees_bind hargs fun args args' ha => ?_)
    refine agrees_named (by decide) hf hcallee fun name => ?_
    refine agrees_bind (agrees_lookup scope name) fun g g' hg => ?_
    exact agrees_bind (agrees_callCallee hm hinv hf hg .null ha) fun v v' hv => agrees_pure (.normal hv)
  · exact hf.ne_member hplain
  · exact hplain

mutual

theorem agrees_eval (hm : m.host.Uniform L) (hinv : Invokes L inv inv') :
    ∀ {p : Place} {n n' : Node}, Rewrites L p n n' → ∀ scope : ScopeId,
      Agrees L (Flow.Matches L p) (Eval.eval m inv n scope) (Eval.eval m inv' n' scope)
  | _, _, _, .program hs hns => fun scope => by
    rw [Eval.eval, Eval.eval]
    exact agrees_located hs (agrees_bind (agrees_evalEach hm hinv hns scope) fun _ _ _ => agrees_pure (.normal .undefined))
  | _, _, _, .variables hs hns => fun scope => by
    rw [Eval.eval, Eval.eval]
    exact agrees_located hs (agrees_bind (agrees_evalEach hm hinv hns scope) fun _ _ _ => agrees_pure (.normal .undefined))
  | _, _, _, .declarator hs hid => fun scope => by
    rw [Eval.eval, Eval.eval]
    refine agrees_located hs (agrees_named (by decide) hid (agrees_eval hm hinv hid scope) fun name => ?_)
    refine agrees_bind (agrees_checkNew m scope name) fun _ _ _ => ?_
    exact agrees_bind (agrees_declare scope name .undefined) fun _ _ _ => agrees_pure (.normal .undefined)
  | _, _, _, .initialized hs hid he => fun scope => by
    rw [Eval.eval, Eval.eval]
    refine agrees_located hs (agrees_named (by decide) hid (agrees_eval hm hinv hid scope) fun name => ?_)
    refine agrees_bind (agrees_checkNew m scope name) fun _ _ _ => ?_
    refine agrees_bind (agrees_eval hm hinv he scope) fun flow flow' hflow => ?_
    exact agrees_bind (agrees_declare scope name (hflow.value (by decide))) fun _ _ _ => agrees_pure (.normal .undefined)
  | _, _, _, .function hs hid hps hbody => fun scope => by
    rw [Eval.eval, Eval.eval]
    refine agrees_located hs (agrees_named (by decide) hid (agrees_eval hm hinv hid scope) fun name => ?_)
    refine agrees_bind (agrees_checkNew m scope name) fun _ _ _ => ?_
    exact agrees_bind (agrees_declare scope name (.function ⟨hs, hid, hps, hbody, rfl⟩)) fun _ _ _ =>
      agrees_pure (.normal .undefined)
  | _, _, _, .leaving _ => fun scope => by
    rw [Eval.eval, Eval.eval]
    exact agrees_pure (.returned .undefined)
  | _, _, _, .returning hs he => fun scope => by
    rw [Eval.eval, Eval.eval]
    exact agrees_located hs (agrees_bind (agrees_eval hm hinv he scope) fun flow flow' hflow =>
      agrees_pure (.returned (hflow.value (by decide))))
  | _, _, _, .block hs hns => fun scope => by
    rw [Eval.eval, Eval.eval]
    exact agrees_located hs ((agrees_evalBlock hm hinv hns (by decide) .undefined scope).mono fun _ _ hflow =>
      hflow.at (by decide))
  | _, _, _, .straightened hs hns => fun scope => by
    rw [Eval.eval, Eval.eval]
    exact agrees_located hs (agrees_evalSplices hm hinv hns .undefined .undefined scope)
  | _, _, _, .expression hs he => fun scope => by
    rw [Eval.eval, Eval.eval]
    exact agrees_located hs (agrees_bind (agrees_eval hm hinv he scope) fun flow flow' hflow =>
      agrees_pure (.normal (hflow.value (by decide))))
  | _, _, _, .empty _ => fun scope => by
    rw [Eval.eval, Eval.eval]
    exact agrees_pure (.normal .undefined)
  | _, _, _, .binary hs ha hb => fun scope => by
    rw [Eval.eval, Eval.eval]
    refine agrees_located hs (agrees_bind (agrees_operand ha (agrees_eval hm hinv ha scope)) fun v v' hv => ?_)
    refine agrees_bind (agrees_operand hb (agrees_eval hm hinv hb scope)) fun u u' hu => ?_
    exact agrees_bind (agrees_apply hv hu _) fun w w' hw => agrees_pure (.normal hw)
  | _, _, _, .ident _ | _, _, _, .quoted _ _ _ | _, _, _, .string _ => fun scope => by
    rw [Eval.eval, Eval.eval]
    exact agrees_pure (.normal .string)
  | _, _, _, .number _ => fun scope => by
    rw [Eval.eval, Eval.eval]
    exact agrees_pure (.normal .number)
  | _, _, _, .bool _ => fun scope => by
    rw [Eval.eval, Eval.eval]
    exact agrees_pure (.normal .bool)
  | _, _, _, .null _ => fun scope => by
    rw [Eval.eval, Eval.eval]
    exact agrees_pure (.normal .null)
  | _, _, _, .this _ => fun scope => by
    rw [Eval.eval, Eval.eval]
    exact agrees_bind (agrees_lookup scope "this") fun v v' hv => agrees_pure (.normal hv)
  | _, _, _, .array hs hns => fun scope => by
    rw [Eval.eval, Eval.eval]
    exact agrees_located hs (agrees_bind (agrees_evalList hm hinv hns (by decide) scope) fun vs vs' hvs =>
      agrees_pure (.normal (.array hvs)))
  | _, _, _, .member hs ho hk => fun scope => by
    rw [Eval.eval, Eval.eval]
    refine agrees_located hs (agrees_named (by decide) ho (agrees_eval hm hinv ho scope) fun name => ?_)
    refine agrees_bind (agrees_lookup scope name) fun base base' hbase => ?_
    refine agrees_bind (agrees_eval hm hinv hk scope) fun key key' hkey => ?_
    rw [(hkey.value (by decide)).text_eq]
    exact agrees_bind (agrees_property hbase _) fun v v' hv => agrees_pure (.normal hv)
  | _, _, _, .memberCall hs ht ho hk hns => fun scope => by
    rw [Eval.eval, Eval.eval]
    refine agrees_located hs (agrees_bind (agrees_evalArguments hm hinv hns rfl scope) fun args args' ha => ?_)
    refine agrees_named (by decide) ho (agrees_eval hm hinv ho scope) fun name => ?_
    refine agrees_bind (agrees_lookup scope name) fun base base' hbase => ?_
    refine agrees_bind (agrees_eval hm hinv hk scope) fun key key' hkey => ?_
    rw [(hkey.value (by decide)).text_eq]
    refine agrees_bind (agrees_located ht (agrees_property hbase _)) fun f f' hf => ?_
    refine agrees_bind (agrees_callCallee (p := .value) hm hinv (.member ht ho hk) hf hbase ha) fun v v' hv => ?_
    exact agrees_pure (.normal hv)
  | _, _, _, .call hs hplain hf hns => fun scope =>
    agrees_call_plain hm hinv hs hplain hf (agrees_eval hm hinv hf scope) (agrees_evalArguments hm hinv hns rfl scope) _
  | _, _, _, .unsupported hs => fun scope => by
    rw [Eval.eval, Eval.eval]
    exact agrees_located hs (agrees_fail _)

theorem agrees_evalEach (hm : m.host.Uniform L) (hinv : Invokes L inv inv') :
    ∀ {p : Place} {ns ns' : List Node}, RewritesAll L p ns ns' → ∀ scope : ScopeId,
      Agrees L (fun _ _ => True) (Eval.evalEach m inv ns scope) (Eval.evalEach m inv' ns' scope)
  | _, _, _, .nil => fun scope => by
    rw [Eval.evalEach, Eval.evalEach]
    exact agrees_pure trivial
  | _, _, _, .cons hn hns => fun scope => by
    rw [Eval.evalEach, Eval.evalEach]
    exact agrees_bind (agrees_eval hm hinv hn scope) fun _ _ _ => agrees_evalEach hm hinv hns scope

theorem agrees_evalBlock (hm : m.host.Uniform L) (hinv : Invokes L inv inv') :
    ∀ {p : Place} {ns ns' : List Node}, RewritesAll L p ns ns' → p ≠ .statement →
    ∀ {v v' : Value}, v.Matches L v' → ∀ scope : ScopeId,
      Agrees L (Flow.Matches L p) (Eval.evalBlock m inv ns v scope) (Eval.evalBlock m inv' ns' v' scope)
  | _, _, _, .nil => fun _ _ _ hv scope => by
    rw [Eval.evalBlock, Eval.evalBlock]
    exact agrees_pure (.normal hv)
  | _, _, _, .cons hn hns => fun hp _ _ _ scope => by
    rw [evalBlock_cons, evalBlock_cons]
    refine agrees_bind (agrees_eval hm hinv hn scope) fun flow flow' hflow => ?_
    cases hflow with
    | normal hv => exact agrees_evalBlock hm hinv hns hp hv scope
    | returned hv => exact agrees_pure (.returned hv)
    | dropped => exact absurd rfl hp

/-- What comes last before a list of statements is of no concern. -/
theorem agrees_evalSplices (hm : m.host.Uniform L) (hinv : Invokes L inv inv') :
    ∀ {ns ns' : List Node}, Splices L ns ns' → ∀ (v v' : Value) (scope : ScopeId),
      Agrees L (Flow.Matches L .statement) (Eval.evalBlock m inv ns v scope) (Eval.evalBlock m inv' ns' v' scope)
  | _, _, .nil => fun v v' scope => by
    rw [Eval.evalBlock, Eval.evalBlock]
    exact agrees_pure .dropped
  | _, _, .cons hn hns => fun v v' scope => by
    rw [evalBlock_cons, evalBlock_cons]
    refine agrees_bind (agrees_eval hm hinv hn scope) fun flow flow' hflow => ?_
    cases hflow with
    | normal _ | dropped => exact agrees_evalSplices hm hinv hns _ _ scope
    | returned hv => exact agrees_pure (.returned hv)
  | _, _, .splice _ hns => fun v v' scope => by
    rw [evalBlock_splice]
    exact agrees_evalSplices hm hinv hns .undefined v' scope
  | _, _, .dead _ (.leaving _) => fun v v' scope => by
    rw [evalBlock_cons, evalBlock_cons, Eval.eval, Eval.eval]
    exact agrees_pure (.returned .undefined)
  | _, _, .dead _ (.returning hs he) => fun v v' scope => by
    rw [evalBlock_cons, evalBlock_cons, Eval.eval, Eval.eval]
    -- The statement does not complete but with a return, so nothing follows it.
    refine agrees_bind (P := fun f g => ∃ u u', f = .returned u ∧ g = .returned u' ∧ u.Matches L u') ?_ ?_
    · exact agrees_located hs (agrees_bind (agrees_eval hm hinv he scope) fun flow flow' hflow =>
        agrees_pure ⟨_, _, rfl, rfl, hflow.value (by decide)⟩)
    · rintro _ _ ⟨u, u', rfl, rfl, hu⟩
      exact agrees_pure (.returned hu)

theorem agrees_evalList (hm : m.host.Uniform L) (hinv : Invokes L inv inv') :
    ∀ {p : Place} {ns ns' : List Node}, RewritesAll L p ns ns' → p ≠ .statement → ∀ scope : ScopeId,
      Agrees L (Value.MatchesAll L) (Eval.evalList m inv ns scope) (Eval.evalList m inv' ns' scope)
  | _, _, _, .nil => fun _ scope => by
    rw [Eval.evalList, Eval.evalList]
    exact agrees_pure .nil
  | _, _, _, .cons hn hns => fun hp scope => by
    rw [Eval.evalList, Eval.evalList]
    refine agrees_bind (agrees_eval hm hinv hn scope) fun flow flow' hflow => ?_
    exact agrees_bind (agrees_evalList hm hinv hns hp scope) fun vs vs' hvs => agrees_pure (.cons (hflow.value hp) hvs)

theorem agrees_evalArguments (hm : m.host.Uniform L) (hinv : Invokes L inv inv') :
    ∀ {p : Place} {ns ns' : List Node}, RewritesAll L p ns ns' → p = .looked → ∀ scope : ScopeId,
      Agrees L (Value.MatchesAll L) (Eval.evalArguments m inv ns scope) (Eval.evalArguments m inv' ns' scope)
  | _, _, _, .nil => fun _ scope => by
    rw [Eval.evalArguments, Eval.evalArguments]
    exact agrees_pure .nil
  | _, _, _, .cons hn hns => fun hp scope => by
    have hrun := agrees_eval hm hinv hn scope
    rw [hp] at hrun
    rw [Eval.evalArguments, Eval.evalArguments]
    refine agrees_bind (agrees_operand (hp ▸ hn) hrun) fun v v' hv => ?_
    exact agrees_bind (agrees_evalArguments hm hinv hns hp scope) fun vs vs' hvs => agrees_pure (.cons hv hvs)

end

/-! ## Runs -/

/-- By induction on the room for calls: the body of a function runs with less of it. -/
theorem invokes_invoke (hm : m.host.Uniform L) (room : Nat) : Invokes L (Eval.invoke m room) (Eval.invoke m room) := by
  induction room with
  | zero => exact fun _ _ _ => agrees_fail _
  | succ room ih =>
    intro c c' this this' args args' hc ht ha s t hs
    have hlatest : (s.apply (.enter c this args)).scopes.latest = (t.apply (.enter c' this' args')).scopes.latest := by
      rw [Store.latest_enter, Store.latest_enter, hs.size]
    have hbody := agrees_leaving (agrees_eval hm ih hc.body (s.apply (.enter c this args)).scopes.latest)
    have hcall := agrees_bind hbody fun flow flow' hflow => agrees_pure hflow.result
    have hends := hcall _ _ (hs.enter hc ht ha)
    rw [Eval.invoke_succ, Eval.invoke_succ]
    show Ends L _ _ ((Eval.eval m _ c'.body (t.apply (.enter c' this' args')).scopes.latest).leaving >>= _ <| _)
    rw [← hlatest]
    exact hends

/-- A tree and what it is rewritten to, run in the same scope of matching stores. -/
theorem agrees_evaluate (hm : m.host.Uniform L) {p : Place} {n n' : Node} (h : Rewrites L p n n') (scope : ScopeId) :
    Agrees L (Flow.Matches L p) (m.evaluate n scope) (m.evaluate n' scope) := by
  intro s t hs
  have hroom : m.room t = m.room s := by rw [Machine.room, Machine.room, hs.depth]
  unfold Machine.evaluate
  rw [show m.room (World.store t) = m.room s from hroom]
  exact agrees_eval hm (invokes_invoke hm (m.room s)) h scope s t hs

end

end

end Treewalk
