/-
  Treewalk.Proofs.Discipline — laws that every evaluation keeps.

  A `Discipline` says what holds of a world all along (`Inv`), how a world may differ from an earlier
  one in which an evaluation began (`Rel`), which closures are around (`Knows`) and which nodes may
  be evaluated in which scope (`Fits`). It is `Upheld` by a machine if each change that evaluation
  makes keeps it: binding a declared name, beginning and ending a call, printing.

  Proved: under an upheld discipline every evaluation, however it ends, keeps `Inv` and leaves a
  world related to the one it began in, and its value has only known closures (`evaluate_keeps`). What
  one change keeps, a whole run keeps: laws of runs are stated as disciplines and checked change by
  change.
-/

import Treewalk.Proofs.Closures
import Treewalk.Proofs.Shape

namespace Treewalk

structure Discipline (ω : Type) where
  Inv : ω → Prop
  Rel : ω → ω → Prop
  Knows : ω → Closure → Prop
  Fits : ω → Node → ScopeId → Prop

namespace Discipline

section
variable {ω α : Type} {D : Discipline ω} {w : ω}

/-- A value all of whose closures are known. -/
abbrev Good (D : Discipline ω) (w : ω) (v : Value) : Prop := v.Only (D.Knows w)

/-- Started in `w`, the action keeps the discipline, and what it returns satisfies `Q`. -/
def Keeps (D : Discipline ω) (w : ω) (a : Action ω α) (Q : α → ω → Prop) : Prop :=
  match a w with
  | .ok v w' => D.Inv w' ∧ D.Rel w w' ∧ Q v w'
  | .error _ w' => D.Inv w' ∧ D.Rel w w'

/-- However the action ends, what it leaves keeps the discipline. -/
theorem Keeps.after {a : Action ω α} {Q : α → ω → Prop} (h : D.Keeps w a Q) :
    D.Inv (a.after w) ∧ D.Rel w (a.after w) := by
  unfold Keeps at h
  unfold Action.after
  cases hw : a w with
  | error e w' =>
    rw [hw] at h
    exact h
  | ok v w' =>
    rw [hw] at h
    exact ⟨h.1, h.2.1⟩

theorem keeps_located {a : Action ω α} {span : Span} {Q : α → ω → Prop} (ha : D.Keeps w a Q) :
    D.Keeps w (a.located span) Q := by
  unfold Keeps at ha ⊢
  cases hw : a w with
  | error e w₁ =>
    rw [Action.located_error span hw]
    rw [hw] at ha
    exact ha
  | ok v w₁ =>
    rw [Action.located_ok span hw]
    rw [hw] at ha
    exact ha

end

end Discipline

variable {ω : Type} [World ω]

/-- `Declares m room d scope w₀ w v`: the declaration `d`, whose name was found free in `w₀`, binds it
    to `v` in `w`. -/
inductive Declares (m : Machine) (room : Nat) : Node → ScopeId → ω → ω → Value → Prop
  | plain (span : Span) (id : Node) (scope : ScopeId) (w : ω) :
      Declares m room (.declarator span id none) scope w w .undefined
  | initialized (span : Span) (id init : Node) (scope : ScopeId) {w₀ w : ω} {flow : Flow} :
      Eval.eval m (Eval.invoke m room) init scope w₀ = .ok flow w →
        Declares m room (.declarator span id (some init)) scope w₀ w flow.value
  | function (span : Span) (id : Node) (params : List Param) (body : Node) (scope : ScopeId) (w : ω) :
      Declares m room (.function span id params body) scope w w (.function ⟨span, id, params, body, scope⟩)

/-- A discipline that each change of an evaluation keeps. -/
structure Discipline.Upheld (D : Discipline ω) (m : Machine) : Prop where
  refl : ∀ w, D.Rel w w
  trans : ∀ {w₁ w₂ w₃}, D.Rel w₁ w₂ → D.Rel w₂ w₃ → D.Rel w₁ w₃
  knows_mono : ∀ {w w' c}, D.Rel w w' → D.Knows w c → D.Knows w' c
  fits_mono : ∀ {w w' n scope}, D.Rel w w' → D.Fits w n scope → D.Fits w' n scope
  fits_below : ∀ {w n scope d}, D.Fits w n scope → d ∈ n.inScope → D.Fits w d scope
  /-- A declared function is known. -/
  fits_function : ∀ {w span id params body scope}, D.Fits w (.function span id params body) scope →
    D.Knows w ⟨span, id, params, body, scope⟩
  bound_known : ∀ {w i name v}, D.Inv w → (World.store w).scopes.getLocal i name = some v → D.Good w v
  host : ∀ {w name this args v}, D.Good w this → (∀ a ∈ args, D.Good w a) →
    (m.host.call name m.options.color this args).result = .ok v → D.Good w v
  bind : ∀ {r d scope w₀ w v name}, D.Inv w → D.Rel w₀ w → D.Fits w₀ d scope → D.Good w v →
    m.options.redeclaration.takes (World.store w₀).scopes scope name = false → Declares m r d scope w₀ w v →
    D.Inv (World.apply w (.bind scope name v)) ∧ D.Rel w (World.apply w (.bind scope name v))
  enter : ∀ {w c this args}, D.Inv w → D.Knows w c → D.Good w this → (∀ a ∈ args, D.Good w a) →
    D.Inv (World.apply w (.enter c this args)) ∧
      D.Fits (World.apply w (.enter c this args)) c.body
        (World.store (World.apply w (.enter c this args))).scopes.latest
  leave : ∀ {w w' c this args}, D.Inv w → D.Inv w' → D.Rel (World.apply w (.enter c this args)) w' →
    D.Inv (World.apply w' .leave) ∧ D.Rel w (World.apply w' .leave) ∧
      ∀ c, D.Knows w' c → D.Knows (World.apply w' .leave) c
  print : ∀ {w lines}, D.Inv w → D.Inv (World.apply w (.print lines)) ∧ D.Rel w (World.apply w (.print lines))

namespace Discipline

variable {D : Discipline ω} {m : Machine} {α β : Type}

section
variable (hD : D.Upheld m)
include hD

theorem good_mono {w w' : ω} {v : Value} (hr : D.Rel w w') (h : D.Good w v) : D.Good w' v :=
  h.mono fun _ => hD.knows_mono hr

theorem good_get {w : ω} (hi : D.Inv w) (scope : ScopeId) (name : String) :
    D.Good w ((World.store w).scopes.get scope name) := by
  unfold Scopes.get
  cases h : (World.store w).scopes.lookup scope name with
  | none => exact Value.only_of_closures_nil rfl
  | some v =>
    obtain ⟨j, hj⟩ := Scopes.lookup_bound h
    exact hD.bound_known hi hj

/-! ## Actions -/

theorem keeps_pure {w : ω} {v : α} {Q : α → ω → Prop} (hi : D.Inv w) (hq : Q v w) : D.Keeps w (pure v) Q :=
  ⟨hi, hD.refl w, hq⟩

theorem keeps_throw {w : ω} {e : EvalError} {Q : α → ω → Prop} (hi : D.Inv w) :
    D.Keeps w (throw e : Action ω α) Q :=
  ⟨hi, hD.refl w⟩

theorem keeps_bind {w : ω} {a : Action ω α} {f : α → Action ω β} {P : α → ω → Prop} {Q : β → ω → Prop}
    (ha : D.Keeps w a P)
    (hf : ∀ v w', a w = .ok v w' → D.Inv w' → D.Rel w w' → P v w' → D.Keeps w' (f v) Q) :
    D.Keeps w (a >>= f) Q := by
  unfold Keeps at ha ⊢
  cases hw : a w with
  | error e w₁ =>
    rw [Action.bind_error hw]
    rw [hw] at ha
    exact ha
  | ok v w₁ =>
    rw [Action.bind_ok hw]
    rw [hw] at ha
    obtain ⟨hi, hr, hp⟩ := ha
    have hk := hf v w₁ hw hi hr hp
    unfold Keeps at hk
    split <;> rename_i hw' <;> rw [hw'] at hk
    · exact ⟨hk.1, hD.trans hr hk.2.1, hk.2.2⟩
    · exact ⟨hk.1, hD.trans hr hk.2⟩

theorem keeps_ofExcept {w : ω} {r : Except Cause α} {Q : α → ω → Prop} (hi : D.Inv w)
    (h : ∀ v, r = .ok v → Q v w) : D.Keeps w (Action.ofExcept r) Q := by
  cases r with
  | error e => exact keeps_throw hD hi
  | ok v => exact keeps_pure hD hi (h v rfl)

theorem keeps_lookup {w : ω} (hi : D.Inv w) (scope : ScopeId) (name : String) :
    D.Keeps w (Action.lookup scope name) (fun v w' => D.Good w' v) :=
  ⟨hi, hD.refl w, good_get hD hi scope name⟩

theorem keeps_operand {w : ω} {n : Node} {scope : ScopeId} {run : Action ω Flow} (hi : D.Inv w)
    (hrun : D.Keeps w run (fun flow w' => D.Good w' flow.value)) :
    D.Keeps w (Eval.operand n scope run) (fun v w' => D.Good w' v) := by
  unfold Eval.operand
  split
  · exact keeps_lookup hD hi _ _
  · refine keeps_bind hD hrun fun flow w' _ hi' _ hg => ?_
    exact keeps_pure hD hi' hg

theorem keeps_nameOf {w : ω} {n : Node} {run : Action ω Flow} (hi : D.Inv w)
    (hrun : D.Keeps w run (fun flow w' => D.Good w' flow.value)) :
    D.Keeps w (Eval.nameOf n run) (fun _ _ => True) := by
  unfold Eval.nameOf
  split
  · exact keeps_pure hD hi trivial
  · refine keeps_bind hD hrun fun flow w' _ hi' _ _ => ?_
    exact keeps_pure hD hi' trivial

/-- Behind the check nothing has changed and the name is free. -/
theorem keeps_checkNew {w : ω} (hi : D.Inv w) (scope : ScopeId) (name : String) :
    D.Keeps w (Eval.checkNew m scope name) (fun _ w' => w' = w ∧
      m.options.redeclaration.takes (World.store w).scopes scope name = false) := by
  unfold Keeps
  cases ht : m.options.redeclaration.takes (World.store w).scopes scope name with
  | true =>
    rw [Eval.checkNew_taken m ht]
    exact ⟨hi, hD.refl w⟩
  | false =>
    rw [Eval.checkNew_free m ht]
    exact ⟨hi, hD.refl w, rfl, rfl⟩

/-! ## Calls -/

/-- Calling a known closure with good values keeps the discipline. -/
def Invokes (D : Discipline ω) (inv : Invoke ω) : Prop :=
  ∀ {w c this args}, D.Inv w → D.Knows w c → D.Good w this → (∀ a ∈ args, D.Good w a) →
    D.Keeps w (inv c this args) (fun v w' => D.Good w' v)

theorem keeps_callHost {w : ω} {name : String} {this : Value} {args : List Value} (hi : D.Inv w)
    (ht : D.Good w this) (ha : ∀ a ∈ args, D.Good w a) :
    D.Keeps w (Eval.callHost m name this args) (fun v w' => D.Good w' v) := by
  unfold Eval.callHost
  refine keeps_bind hD (P := fun _ _ => True) ⟨(hD.print hi).1, (hD.print hi).2, trivial⟩ ?_
  intro _ w' _ hi' hr _
  cases hv : (m.host.call name m.options.color this args).result with
  | error e => exact keeps_throw hD hi'
  | ok v => exact keeps_pure hD hi' (good_mono hD hr (hD.host ht ha hv))

theorem keeps_callValue {w : ω} {inv : Invoke ω} {f this : Value} {args : List Value} (hinv : D.Invokes inv)
    (hi : D.Inv w) (hf : D.Good w f) (ht : D.Good w this) (ha : ∀ a ∈ args, D.Good w a) :
    D.Keeps w (Eval.callValue m inv f this args) (fun v w' => D.Good w' v) := by
  unfold Eval.callValue
  split
  · exact hinv hi (Value.only_function.mp hf) ht ha
  · exact keeps_callHost hD hi ht ha
  · exact keeps_throw hD hi

theorem keeps_callCallee {w : ω} {inv : Invoke ω} {callee : Node} {f this : Value} {args : List Value}
    (hinv : D.Invokes inv) (hi : D.Inv w) (hf : D.Good w f) (ht : D.Good w this) (ha : ∀ a ∈ args, D.Good w a) :
    D.Keeps w (Eval.callCallee m inv callee f this args) (fun v w' => D.Good w' v) := by
  unfold Eval.callCallee
  split
  · exact keeps_callValue hD hinv hi hf ht ha
  · exact keeps_throw hD hi

/-! ## Nodes -/

/-- A call whose callee is no member access: the callee stands for a name. -/
theorem keeps_call_plain {inv : Invoke ω} {span : Span} {callee : Node} {arguments : List Node} {scope : ScopeId}
    {w : ω} (hinv : D.Invokes inv) (hplain : ∀ a b c d, callee ≠ .member a b c d)
    (hargs : D.Keeps w (Eval.evalArguments m inv arguments scope) (fun vs w' => ∀ v ∈ vs, D.Good w' v))
    (hcallee : ∀ w', D.Inv w' → D.Rel w w' →
      D.Keeps w' (Eval.eval m inv callee scope) (fun flow w' => D.Good w' flow.value)) :
    D.Keeps w (Eval.eval m inv (.call span callee arguments) scope) (fun flow w' => D.Good w' flow.value) := by
  rw [Eval.eval]
  · refine keeps_located (keeps_bind hD hargs ?_)
    intro args w₁ _ hi₁ hr₁ hargs
    refine keeps_bind hD (keeps_nameOf hD hi₁ (hcallee w₁ hi₁ hr₁)) ?_
    intro name w₂ _ hi₂ hr₂ _
    refine keeps_bind hD (keeps_lookup hD hi₂ scope name) ?_
    intro f w₃ _ hi₃ hr₃ hf
    have hargs₃ := fun a ha => good_mono hD (hD.trans hr₂ hr₃) (hargs a ha)
    refine keeps_bind hD (keeps_callCallee hD hinv hi₃ hf (Value.only_of_closures_nil rfl) hargs₃) ?_
    exact fun v w' _ hi' _ hg => keeps_pure hD hi' hg
  · exact hplain

mutual

/-- One case for each kind of node: the nodes below keep the discipline, and so do the changes made
    between them. -/
theorem keeps_eval {room : Nat} (hinv : D.Invokes (Eval.invoke m room)) :
    ∀ (n : Node) (scope : ScopeId) {w : ω}, D.Inv w → D.Fits w n scope →
      D.Keeps w (Eval.eval m (Eval.invoke m room) n scope) (fun flow w' => D.Good w' flow.value)
  | .program span body, scope, w, hi, hn => by
    rw [Eval.eval]
    refine keeps_located (keeps_bind hD (keeps_evalEach hinv body scope hi ?_) ?_)
    · exact fun n hb => hD.fits_below hn hb
    · exact fun _ w' _ hi' _ _ => keeps_pure hD hi' (Value.only_of_closures_nil rfl)
  | .variables span word declarators, scope, w, hi, hn => by
    rw [Eval.eval]
    refine keeps_located (keeps_bind hD (keeps_evalEach hinv declarators scope hi ?_) ?_)
    · exact fun n hb => hD.fits_below hn hb
    · exact fun _ w' _ hi' _ _ => keeps_pure hD hi' (Value.only_of_closures_nil rfl)
  | .declarator span id none, scope, w, hi, hn => by
    rw [Eval.eval]
    have hid := hD.fits_below (d := id) hn (by simp [Node.inScope, Node.children])
    refine keeps_located (keeps_bind hD (keeps_nameOf hD hi (keeps_eval hinv id scope hi hid)) ?_)
    intro name w₀ _ hi₀ hr₀ _
    refine keeps_bind hD (keeps_checkNew hD hi₀ scope name) ?_
    rintro _ _ - - - ⟨rfl, hfree⟩
    have hb := hD.bind (r := room) hi₀ (hD.refl _) (hD.fits_mono hr₀ hn) (Value.only_of_closures_nil rfl) hfree
      (.plain span id scope _)
    refine keeps_bind hD (P := fun _ _ => True) ⟨hb.1, hb.2, trivial⟩ ?_
    exact fun _ w' _ hi' _ _ => keeps_pure hD hi' (Value.only_of_closures_nil rfl)
  | .declarator span id (some init), scope, w, hi, hn => by
    rw [Eval.eval]
    have hid := hD.fits_below (d := id) hn (by simp [Node.inScope, Node.children])
    have hinit := hD.fits_below (d := init) hn (by simp [Node.inScope, Node.children])
    refine keeps_located (keeps_bind hD (keeps_nameOf hD hi (keeps_eval hinv id scope hi hid)) ?_)
    intro name w₀ _ hi₀ hr₀ _
    refine keeps_bind hD (keeps_checkNew hD hi₀ scope name) ?_
    rintro _ _ - - - ⟨rfl, hfree⟩
    refine keeps_bind hD (keeps_eval hinv init scope hi₀ (hD.fits_mono hr₀ hinit)) ?_
    intro flow w₁ hev hi₁ hr₁ hg
    have hb := hD.bind (r := room) hi₁ hr₁ (hD.fits_mono hr₀ hn) hg hfree (.initialized span id init scope hev)
    refine keeps_bind hD (P := fun _ _ => True) ⟨hb.1, hb.2, trivial⟩ ?_
    exact fun _ w' _ hi' _ _ => keeps_pure hD hi' (Value.only_of_closures_nil rfl)
  | .function span id params body, scope, w, hi, hn => by
    rw [Eval.eval]
    have hid := hD.fits_below (d := id) hn (by simp [Node.inScope])
    refine keeps_located (keeps_bind hD (keeps_nameOf hD hi (keeps_eval hinv id scope hi hid)) ?_)
    intro name w₀ _ hi₀ hr₀ _
    refine keeps_bind hD (keeps_checkNew hD hi₀ scope name) ?_
    rintro _ _ - - - ⟨rfl, hfree⟩
    have hn₀ := hD.fits_mono hr₀ hn
    have hb := hD.bind (r := room) hi₀ (hD.refl _) hn₀ (Value.only_function.mpr (hD.fits_function hn₀)) hfree
      (.function span id params body scope _)
    refine keeps_bind hD (P := fun _ _ => True) ⟨hb.1, hb.2, trivial⟩ ?_
    exact fun _ w' _ hi' _ _ => keeps_pure hD hi' (Value.only_of_closures_nil rfl)
  | .returning span none, scope, w, hi, hn => by
    rw [Eval.eval]
    exact keeps_pure hD hi (Value.only_of_closures_nil rfl)
  | .returning span (some argument), scope, w, hi, hn => by
    rw [Eval.eval]
    have ha := hD.fits_below (d := argument) hn (by simp [Node.inScope, Node.children])
    refine keeps_located (keeps_bind hD (keeps_eval hinv argument scope hi ha) ?_)
    exact fun flow w' _ hi' _ hg => keeps_pure hD hi' hg
  | .block span body, scope, w, hi, hn => by
    rw [Eval.eval]
    refine keeps_located (keeps_evalBlock hinv body .undefined scope hi ?_ (Value.only_of_closures_nil rfl))
    exact fun n hb => hD.fits_below hn hb
  | .expression span e, scope, w, hi, hn => by
    rw [Eval.eval]
    have he := hD.fits_below (d := e) hn (by simp [Node.inScope, Node.children])
    refine keeps_located (keeps_bind hD (keeps_eval hinv e scope hi he) ?_)
    exact fun flow w' _ hi' _ hg => keeps_pure hD hi' hg
  | .empty _, _, w, hi, hn => by
    rw [Eval.eval]
    exact keeps_pure hD hi (Value.only_of_closures_nil rfl)
  | .binary span op left right, scope, w, hi, hn => by
    rw [Eval.eval]
    have hl := hD.fits_below (d := left) hn (by simp [Node.inScope, Node.children])
    have hr := hD.fits_below (d := right) hn (by simp [Node.inScope, Node.children])
    refine keeps_located (keeps_bind hD (keeps_operand hD hi (keeps_eval hinv left scope hi hl)) ?_)
    intro a w₁ _ hi₁ hr₁ _
    refine keeps_bind hD (keeps_operand hD hi₁ (keeps_eval hinv right scope hi₁ (hD.fits_mono hr₁ hr))) ?_
    intro b w₂ _ hi₂ _ _
    refine keeps_bind hD (keeps_ofExcept hD (Q := fun v _ => v.closures = []) hi₂ fun v hv =>
      BinaryOp.apply_closures hv) ?_
    exact fun v w' _ hi' _ hv => keeps_pure hD hi' (Value.only_of_closures_nil hv)
  | .ident _ name, _, w, hi, hn => by
    rw [Eval.eval]
    exact keeps_pure hD hi (Value.only_of_closures_nil rfl)
  | .number _ x, _, w, hi, hn => by
    rw [Eval.eval]
    exact keeps_pure hD hi (Value.only_of_closures_nil rfl)
  | .string _ s, _, w, hi, hn => by
    rw [Eval.eval]
    exact keeps_pure hD hi (Value.only_of_closures_nil rfl)
  | .bool _ b, _, w, hi, hn => by
    rw [Eval.eval]
    exact keeps_pure hD hi (Value.only_of_closures_nil rfl)
  | .null _, _, w, hi, hn => by
    rw [Eval.eval]
    exact keeps_pure hD hi (Value.only_of_closures_nil rfl)
  | .this _, scope, w, hi, hn => by
    rw [Eval.eval]
    refine keeps_bind hD (keeps_lookup hD hi scope "this") ?_
    exact fun v w' _ hi' _ hg => keeps_pure hD hi' hg
  | .array span elements, scope, w, hi, hn => by
    rw [Eval.eval]
    refine keeps_located (keeps_bind hD (keeps_evalList hinv elements scope hi ?_) ?_)
    · exact fun n hb => hD.fits_below hn hb
    · exact fun vs w' _ hi' _ hvs => keeps_pure hD hi' (Value.only_array hvs)
  | .member span object property computed, scope, w, hi, hn => by
    rw [Eval.eval]
    have ho := hD.fits_below (d := object) hn (by simp [Node.inScope, Node.children])
    have hp := hD.fits_below (d := property) hn (by simp [Node.inScope, Node.children])
    refine keeps_located (keeps_bind hD (keeps_nameOf hD hi (keeps_eval hinv object scope hi ho)) ?_)
    intro name w₁ _ hi₁ hr₁ _
    refine keeps_bind hD (keeps_lookup hD hi₁ scope name) ?_
    intro base w₂ _ hi₂ hr₂ hbase
    refine keeps_bind hD (keeps_eval hinv property scope hi₂ (hD.fits_mono (hD.trans hr₁ hr₂) hp)) ?_
    intro key w₃ _ hi₃ hr₃ _
    refine keeps_bind hD (keeps_ofExcept hD (Q := fun v w' => D.Good w' v) hi₃ fun v hv =>
      (good_mono hD hr₃ hbase).property hv) ?_
    exact fun v w' _ hi' _ hg => keeps_pure hD hi' hg
  | .call span callee arguments, scope, w, hi, hn => by
    have hargs := keeps_evalArguments hinv arguments scope hi fun n hb =>
      hD.fits_below hn (List.mem_cons_of_mem _ hb)
    have hcallee := hD.fits_below (d := callee) hn List.mem_cons_self
    cases callee with
    | member memberSpan object property computed =>
      rw [Eval.eval]
      have ho := hD.fits_below (d := object) hcallee (by simp [Node.inScope, Node.children])
      have hp := hD.fits_below (d := property) hcallee (by simp [Node.inScope, Node.children])
      refine keeps_located (keeps_bind hD hargs ?_)
      intro args w₀ _ hi₀ hr₀ hargs
      refine keeps_bind hD (keeps_nameOf hD hi₀ (keeps_eval hinv object scope hi₀ (hD.fits_mono hr₀ ho))) ?_
      intro name w₁ _ hi₁ hr₁ _
      refine keeps_bind hD (keeps_lookup hD hi₁ scope name) ?_
      intro base w₂ _ hi₂ hr₂ hbase
      have hr₂' := hD.trans hr₁ hr₂
      refine keeps_bind hD (keeps_eval hinv property scope hi₂ (hD.fits_mono (hD.trans hr₀ hr₂') hp)) ?_
      intro key w₃ _ hi₃ hr₃ _
      have hbase₃ := good_mono hD hr₃ hbase
      refine keeps_bind hD (keeps_located (keeps_ofExcept hD (Q := fun v w' => D.Good w' v) hi₃ fun v hv =>
        hbase₃.property hv)) ?_
      intro f w₄ _ hi₄ hr₄ hf
      have hargs₄ := fun a ha => good_mono hD (hD.trans hr₂' (hD.trans hr₃ hr₄)) (hargs a ha)
      refine keeps_bind hD (keeps_callCallee hD hinv hi₄ hf (good_mono hD hr₄ hbase₃) hargs₄) ?_
      exact fun v w' _ hi' _ hg => keeps_pure hD hi' hg
    | _ =>
      exact keeps_call_plain hD hinv (by simp) hargs fun w' hi' hr =>
        keeps_eval hinv _ scope hi' (hD.fits_mono hr hcallee)
  | .unsupported span kind, _, w, hi, hn => by
    rw [Eval.eval]
    exact keeps_located (keeps_throw hD hi)

theorem keeps_evalEach {room : Nat} (hinv : D.Invokes (Eval.invoke m room)) :
    ∀ (ns : List Node) (scope : ScopeId) {w : ω}, D.Inv w → (∀ n ∈ ns, D.Fits w n scope) →
      D.Keeps w (Eval.evalEach m (Eval.invoke m room) ns scope) (fun _ _ => True)
  | [], scope, w, hi, hns => by
    rw [Eval.evalEach]
    exact keeps_pure hD hi trivial
  | n :: ns, scope, w, hi, hns => by
    rw [Eval.evalEach]
    refine keeps_bind hD (keeps_eval hinv n scope hi (hns n List.mem_cons_self)) ?_
    intro _ w₁ _ hi₁ hr₁ _
    exact keeps_evalEach hinv ns scope hi₁ fun d hd => hD.fits_mono hr₁ (hns d (List.mem_cons_of_mem _ hd))

theorem keeps_evalBlock {room : Nat} (hinv : D.Invokes (Eval.invoke m room)) :
    ∀ (ns : List Node) (last : Value) (scope : ScopeId) {w : ω}, D.Inv w → (∀ n ∈ ns, D.Fits w n scope) →
      D.Good w last →
        D.Keeps w (Eval.evalBlock m (Eval.invoke m room) ns last scope) (fun flow w' => D.Good w' flow.value)
  | [], last, scope, w, hi, hns, hl => by
    rw [Eval.evalBlock]
    exact keeps_pure hD hi hl
  | n :: ns, last, scope, w, hi, hns, hl => by
    rw [Eval.evalBlock]
    refine keeps_bind hD (keeps_eval hinv n scope hi (hns n List.mem_cons_self)) ?_
    intro flow w₁ _ hi₁ hr₁ hg
    cases flow with
    | normal v =>
      exact keeps_evalBlock hinv ns v scope hi₁ (fun d hd => hD.fits_mono hr₁ (hns d (List.mem_cons_of_mem _ hd))) hg
    | returned v => exact keeps_pure hD hi₁ hg

theorem keeps_evalList {room : Nat} (hinv : D.Invokes (Eval.invoke m room)) :
    ∀ (ns : List Node) (scope : ScopeId) {w : ω}, D.Inv w → (∀ n ∈ ns, D.Fits w n scope) →
      D.Keeps w (Eval.evalList m (Eval.invoke m room) ns scope) (fun vs w' => ∀ v ∈ vs, D.Good w' v)
  | [], scope, w, hi, hns => by
    rw [Eval.evalList]
    exact keeps_pure hD hi (by simp)
  | n :: ns, scope, w, hi, hns => by
    rw [Eval.evalList]
    refine keeps_bind hD (keeps_eval hinv n scope hi (hns n List.mem_cons_self)) ?_
    intro flow w₁ _ hi₁ hr₁ hg
    refine keeps_bind hD (keeps_evalList hinv ns scope hi₁ fun d hd =>
      hD.fits_mono hr₁ (hns d (List.mem_cons_of_mem _ hd))) ?_
    intro vs w₂ _ hi₂ hr₂ hvs
    exact keeps_pure hD hi₂ (List.forall_mem_cons.mpr ⟨good_mono hD hr₂ hg, hvs⟩)

theorem keeps_evalArguments {room : Nat} (hinv : D.Invokes (Eval.invoke m room)) :
    ∀ (ns : List Node) (scope : ScopeId) {w : ω}, D.Inv w → (∀ n ∈ ns, D.Fits w n scope) →
      D.Keeps w (Eval.evalArguments m (Eval.invoke m room) ns scope) (fun vs w' => ∀ v ∈ vs, D.Good w' v)
  | [], scope, w, hi, hns => by
    rw [Eval.evalArguments]
    exact keeps_pure hD hi (by simp)
  | n :: ns, scope, w, hi, hns => by
    rw [Eval.evalArguments]
    refine keeps_bind hD (keeps_operand hD hi (keeps_eval hinv n scope hi (hns n List.mem_cons_self))) ?_
    intro v w₁ _ hi₁ hr₁ hg
    refine keeps_bind hD (keeps_evalArguments hinv ns scope hi₁ fun d hd =>
      hD.fits_mono hr₁ (hns d (List.mem_cons_of_mem _ hd))) ?_
    intro vs w₂ _ hi₂ hr₂ hvs
    exact keeps_pure hD hi₂ (List.forall_mem_cons.mpr ⟨good_mono hD hr₂ hg, hvs⟩)

end

/-! ## Runs -/

/-- By induction on the room for calls: the body of a closure runs with less of it. -/
theorem invokes_invoke (room : Nat) : D.Invokes (Eval.invoke m room) := by
  induction room with
  | zero =>
    intro w c this args hi _ _ _
    exact keeps_throw hD hi
  | succ room ih =>
    intro w c this args hi hc ht ha
    obtain ⟨hi₁, hfits⟩ := hD.enter hi hc ht ha
    have hbody := keeps_eval hD ih c.body _ hi₁ hfits
    unfold Keeps at hbody ⊢
    rw [Eval.invoke_succ]
    split at hbody <;> rename_i hw
    · rw [Action.bind_ok (Action.leaving_ok hw)]
      obtain ⟨hl, hrel, hk⟩ := hD.leave hi hbody.1 hbody.2.1
      exact ⟨hl, hrel, Value.Only.result (hbody.2.2.mono hk)⟩
    · rw [Action.bind_error (Action.leaving_error hw)]
      obtain ⟨hl, hrel, -⟩ := hD.leave hi hbody.1 hbody.2
      exact ⟨hl, hrel⟩

/-- Under an upheld discipline every evaluation keeps it, whether it returns or fails. -/
theorem evaluate_keeps {w : ω} {n : Node} {scope : ScopeId} (hi : D.Inv w) (hn : D.Fits w n scope) :
    D.Keeps w (m.evaluate n scope) (fun flow w' => D.Good w' flow.value) :=
  keeps_eval hD (invokes_invoke hD _) n scope hi hn

end

end Discipline

end Treewalk
