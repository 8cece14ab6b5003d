/-
  Treewalk.Proofs.Rewriting — trees that mean the same, and the values they are found in.

  A `Licence` says what a rewriting may change: where nodes stand, names into quoted names, blocks
  into their statements. `Rewrites L p n n'` is a tree rewritten under a licence, at any number of
  nodes and any depth; what may be done to a node goes by what is made of its value (`Place`). Values
  `Match` if they differ in nothing but the declarations that their functions come from.

  Proved: values that match are shown, joined, computed with and asked for properties alike
  (`Matches.text_eq`, `Matches.toNumber_eq`, `Matches.consoleText_eq`, `Matches.plus_eq`,
  `Matches.property`), and nothing need be rewritten (`Rewrites.refl`, `Matches.refl`).
-/

import Mathlib.Data.List.Forall2
import Treewalk.Eval

namespace Treewalk

/-- What a rewriting may change. -/
structure Licence where
  /-- Where what stands at the first span may stand instead. -/
  moves : Span → Span → Prop
  /-- Names that are not looked up may be quoted. -/
  quotes : Prop
  /-- Blocks may give way to their statements, and what follows a `return` to anything. -/
  splices : Prop

/-- What is made of the value of a node. -/
inductive Place where
  /-- An operand, an argument of a call or the name of a function: there, names are not strings. -/
  | looked
  | value
  /-- A statement: nothing is made of its value unless it returns. -/
  | statement
  deriving DecidableEq

/-- A parameter of the same name. -/
structure Param.Rewrites (L : Licence) (p p' : Param) : Prop where
  name : p.name = p'.name
  span : L.moves p.span p'.span

mutual

inductive Rewrites (L : Licence) : Place → Node → Node → Prop
  | program {p : Place} {s s' : Span} {ns ns' : List Node} : L.moves s s' → RewritesAll L .statement ns ns' →
      Rewrites L p (.program s ns) (.program s' ns')
  | variables {p : Place} {s s' : Span} {word : DeclarationWord} {ns ns' : List Node} : L.moves s s' →
      RewritesAll L .value ns ns' → Rewrites L p (.variables s word ns) (.variables s' word ns')
  | declarator {p : Place} {s s' : Span} {id id' : Node} : L.moves s s' → Rewrites L .value id id' →
      Rewrites L p (.declarator s id none) (.declarator s' id' none)
  | initialized {p : Place} {s s' : Span} {id id' e e' : Node} : L.moves s s' → Rewrites L .value id id' →
      Rewrites L .value e e' → Rewrites L p (.declarator s id (some e)) (.declarator s' id' (some e'))
  | function {p : Place} {s s' : Span} {id id' body body' : Node} {ps ps' : List Param} : L.moves s s' →
      Rewrites L .looked id id' → List.Forall₂ (Param.Rewrites L) ps ps' → Rewrites L .statement body body' →
      Rewrites L p (.function s id ps body) (.function s' id' ps' body')
  | leaving {p : Place} {s s' : Span} : L.moves s s' → Rewrites L p (.returning s none) (.returning s' none)
  | returning {p : Place} {s s' : Span} {e e' : Node} : L.moves s s' → Rewrites L .value e e' →
      Rewrites L p (.returning s (some e)) (.returning s' (some e'))
  | block {p : Place} {s s' : Span} {ns ns' : List Node} : L.moves s s' → RewritesAll L .value ns ns' →
      Rewrites L p (.block s ns) (.block s' ns')
  /-- A block that stands as a statement. -/
  | straightened {s s' : Span} {ns ns' : List Node} : L.moves s s' → Splices L ns ns' →
      Rewrites L .statement (.block s ns) (.block s' ns')
  | expression {p : Place} {s s' : Span} {e e' : Node} : L.moves s s' → Rewrites L .value e e' →
      Rewrites L p (.expression s e) (.expression s' e')
  | empty {p : Place} {s s' : Span} : L.moves s s' → Rewrites L p (.empty s) (.empty s')
  | binary {p : Place} {s s' : Span} {op : BinaryOp} {a a' b b' : Node} : L.moves s s' → Rewrites L .looked a a' →
      Rewrites L .looked b b' → Rewrites L p (.binary s op a b) (.binary s' op a' b')
  | ident {p : Place} {s s' : Span} {name : String} : L.moves s s' → Rewrites L p (.ident s name) (.ident s' name)
  /-- A name taken as text becomes that text. -/
  | quoted {p : Place} {s s' : Span} {name : String} : L.quotes → p ≠ .looked → L.moves s s' →
      Rewrites L p (.ident s name) (.string s' name)
  | number {p : Place} {s s' : Span} {x : Float} : L.moves s s' → Rewrites L p (.number s x) (.number s' x)
  | string {p : Place} {s s' : Span} {text : String} : L.moves s s' → Rewrites L p (.string s text) (.string s' text)
  | bool {p : Place} {s s' : Span} {b : Bool} : L.moves s s' → Rewrites L p (.bool s b) (.bool s' b)
  | null {p : Place} {s s' : Span} : L.moves s s' → Rewrites L p (.null s) (.null s')
  | this {p : Place} {s s' : Span} : L.moves s s' → Rewrites L p (.this s) (.this s')
  | array {p : Place} {s s' : Span} {ns ns' : List Node} : L.moves s s' → RewritesAll L .value ns ns' →
      Rewrites L p (.array s ns) (.array s' ns')
  | member {p : Place} {s s' : Span} {o o' k k' : Node} {computed : Bool} : L.moves s s' → Rewrites L .value o o' →
      Rewrites L .value k k' → Rewrites L p (.member s o k computed) (.member s' o' k' computed)
  | call {p : Place} {s s' : Span} {f f' : Node} {ns ns' : List Node} : L.moves s s' →
      (∀ t o k computed, f ≠ .member t o k computed) → Rewrites L .value f f' → RewritesAll L .looked ns ns' →
      Rewrites L p (.call s f ns) (.call s' f' ns')
  /-- A call of a member, whose object is the receiver. -/
  | memberCall {p : Place} {s s' t t' : Span} {o o' k k' : Node} {computed : Bool} {ns ns' : List Node} : L.moves s s' →
      L.moves t t' → Rewrites L .value o o' → Rewrites L .value k k' → RewritesAll L .looked ns ns' →
      Rewrites L p (.call s (.member t o k computed) ns) (.call s' (.member t' o' k' computed) ns')
  | unsupported {p : Place} {s s' : Span} {kind : String} : L.moves s s' →
      Rewrites L p (.unsupported s kind) (.unsupported s' kind)

inductive RewritesAll (L : Licence) : Place → List Node → List Node → Prop
  | nil {p : Place} : RewritesAll L p [] []
  | cons {p : Place} {n n' : Node} {ns ns' : List Node} : Rewrites L p n n' → RewritesAll L p ns ns' →
      RewritesAll L p (n :: ns) (n' :: ns')

/-- Lists of statements: blocks may be opened, and nothing behind a `return` matters. -/
inductive Splices (L : Licence) : List Node → List Node → Prop
  | nil : Splices L [] []
  | cons {n n' : Node} {ns ns' : List Node} : Rewrites L .statement n n' → Splices L ns ns' →
      Splices L (n :: ns) (n' :: ns')
  | splice {s : Span} {body ns ns' : List Node} : L.splices → Splices L (body ++ ns) ns' →
      Splices L (.block s body :: ns) ns'
  | dead {s : Span} {argument : Option Node} {n' : Node} {ns ns' : List Node} : L.splices →
      Rewrites L .statement (.returning s argument) n' → Splices L (.returning s argument :: ns) (n' :: ns')

end

structure Closure.Rewrites (L : Licence) (c c' : Closure) : Prop where
  span : L.moves c.span c'.span
  id : Treewalk.Rewrites L .looked c.id c'.id
  params : List.Forall₂ (Param.Rewrites L) c.params c'.params
  body : Treewalk.Rewrites L .statement c.body c'.body
  scope : c.scope = c'.scope

mutual

/-- The same value, up to rewriting in the declarations that functions come from. -/
inductive Value.Matches (L : Licence) : Value → Value → Prop
  | undefined : Matches L .undefined .undefined
  | null : Matches L .null .null
  | bool {b : Bool} : Matches L (.bool b) (.bool b)
  | number {x : Float} : Matches L (.number x) (.number x)
  | string {s : String} : Matches L (.string s) (.string s)
  | array {vs vs' : List Value} : Value.MatchesAll L vs vs' → Matches L (.array vs) (.array vs')
  | function {c c' : Closure} : Closure.Rewrites L c c' → Matches L (.function c) (.function c')
  | native {name : String} : Matches L (.native name) (.native name)
  | object {serial : Nat} {name : String} {ms ms' : List (String × Value)} : Value.MatchesMembers L ms ms' →
      Matches L (.object serial name ms) (.object serial name ms')

inductive Value.MatchesAll (L : Licence) : List Value → List Value → Prop
  | nil : MatchesAll L [] []
  | cons {v v' : Value} {vs vs' : List Value} : Value.Matches L v v' → MatchesAll L vs vs' →
      MatchesAll L (v :: vs) (v' :: vs')

inductive Value.MatchesMembers (L : Licence) : List (String × Value) → List (String × Value) → Prop
  | nil : MatchesMembers L [] []
  | cons {key : String} {v v' : Value} {ms ms' : List (String × Value)} : Value.Matches L v v' → MatchesMembers L ms ms' →
      MatchesMembers L ((key, v) :: ms) ((key, v') :: ms')

end

section
variable {L : Licence}

/-! ## Trees -/

/-- Where a node is looked up by its name, the name stays. -/
theorem Rewrites.name?_eq {n n' : Node} (h : Rewrites L .looked n n') : n.name? = n'.name? := by
  cases h with
  | quoted _ hp _ => exact absurd rfl hp
  | _ => rfl

theorem Rewrites.ne_member {p : Place} {f f' : Node} (h : Rewrites L p f f')
    (hf : ∀ t o k computed, f ≠ .member t o k computed) (t : Span) (o k : Node) (computed : Bool) :
    f' ≠ .member t o k computed := by
  rintro rfl
  cases h
  exact hf _ _ _ _ rfl

/-- Only quoting changes what a callee is called. -/
theorem Rewrites.describeCallee_eq (hq : ¬ L.quotes) : ∀ {p : Place} {n n' : Node}, Rewrites L p n n' →
    Eval.describeCallee n = Eval.describeCallee n'
  | _, _, _, @Rewrites.member _ _ _ _ _ _ _ _ computed _ ho hk => by
    cases computed <;> simp only [Eval.describeCallee, describeCallee_eq hq ho, describeCallee_eq hq hk]
  | _, _, _, .quoted h _ _ => absurd h hq
  | _, _, _, .program _ _ | _, _, _, .variables _ _ | _, _, _, .declarator _ _ | _, _, _, .initialized _ _ _
  | _, _, _, .function _ _ _ _ | _, _, _, .leaving _ | _, _, _, .returning _ _ | _, _, _, .block _ _
  | _, _, _, .straightened _ _ | _, _, _, .expression _ _ | _, _, _, .empty _ | _, _, _, .binary _ _ _
  | _, _, _, .ident _ | _, _, _, .number _ | _, _, _, .string _ | _, _, _, .bool _ | _, _, _, .null _
  | _, _, _, .this _ | _, _, _, .array _ _ | _, _, _, .call _ _ _ _ | _, _, _, .memberCall _ _ _ _ _
  | _, _, _, .unsupported _ => rfl

/-! ## Nothing rewritten -/

theorem Param.rewrites_refl (hL : ∀ s, L.moves s s) : ∀ ps : List Param, List.Forall₂ (Param.Rewrites L) ps ps
  | [] => .nil
  | p :: ps => .cons ⟨rfl, hL p.span⟩ (rewrites_refl hL ps)

mutual

theorem Rewrites.refl (hL : ∀ s, L.moves s s) : ∀ (p : Place) (n : Node), Rewrites L p n n
  | _, .program s ns => .program (hL s) (RewritesAll.refl hL .statement ns)
  | _, .variables s _ ns => .variables (hL s) (RewritesAll.refl hL .value ns)
  | _, .declarator s id none => .declarator (hL s) (Rewrites.refl hL .value id)
  | _, .declarator s id (some e) => .initialized (hL s) (Rewrites.refl hL .value id) (Rewrites.refl hL .value e)
  | _, .function s id ps body =>
    .function (hL s) (Rewrites.refl hL .looked id) (Param.rewrites_refl hL ps) (Rewrites.refl hL .statement body)
  | _, .returning s none => .leaving (hL s)
  | _, .returning s (some e) => .returning (hL s) (Rewrites.refl hL .value e)
  | _, .block s ns => .block (hL s) (RewritesAll.refl hL .value ns)
  | _, .expression s e => .expression (hL s) (Rewrites.refl hL .value e)
  | _, .empty s => .empty (hL s)
  | _, .binary s _ a b => .binary (hL s) (Rewrites.refl hL .looked a) (Rewrites.refl hL .looked b)
  | _, .ident s _ => .ident (hL s)
  | _, .number s _ => .number (hL s)
  | _, .string s _ => .string (hL s)
  | _, .bool s _ => .bool (hL s)
  | _, .null s => .null (hL s)
  | _, .this s => .this (hL s)
  | _, .array s ns => .array (hL s) (RewritesAll.refl hL .value ns)
  | _, .member s o k _ => .member (hL s) (Rewrites.refl hL .value o) (Rewrites.refl hL .value k)
  | _, .call s f ns => by
    have hns := RewritesAll.refl hL .looked ns
    cases f with
    | member t o k _ => exact .memberCall (hL s) (hL t) (Rewrites.refl hL .value o) (Rewrites.refl hL .value k) hns
    | _ => exact .call (hL s) (by simp) (Rewrites.refl hL .value _) hns
  | _, .unsupported s _ => .unsupported (hL s)

theorem RewritesAll.refl (hL : ∀ s, L.moves s s) : ∀ (p : Place) (ns : List Node), RewritesAll L p ns ns
  | _, [] => .nil
  | p, n :: ns => .cons (Rewrites.refl hL p n) (RewritesAll.refl hL p ns)

end

theorem Splices.refl (hL : ∀ s, L.moves s s) : ∀ ns : List Node, Splices L ns ns
  | [] => .nil
  | n :: ns => .cons (Rewrites.refl hL .statement n) (Splices.refl hL ns)

namespace Value

mutual

theorem Matches.refl (hL : ∀ s, L.moves s s) : ∀ v : Value, Matches L v v
  | .undefined => .undefined
  | .null => .null
  | .bool _ => .bool
  | .number _ => .number
  | .string _ => .string
  | .array vs => .array (MatchesAll.refl hL vs)
  | .function c => .function ⟨hL c.span, Rewrites.refl hL .looked c.id, Param.rewrites_refl hL c.params,
    Rewrites.refl hL .statement c.body, rfl⟩
  | .native _ => .native
  | .object _ _ ms => .object (MatchesMembers.refl hL ms)

theorem MatchesAll.refl (hL : ∀ s, L.moves s s) : ∀ vs : List Value, MatchesAll L vs vs
  | [] => .nil
  | v :: vs => .cons (Matches.refl hL v) (MatchesAll.refl hL vs)

theorem MatchesMembers.refl (hL : ∀ s, L.moves s s) : ∀ ms : List (String × Value), MatchesMembers L ms ms
  | [] => .nil
  | (_, v) :: ms => .cons (Matches.refl hL v) (MatchesMembers.refl hL ms)

end

/-! ## What matching values have in common -/

section
variable {v v' u u' : Value}

theorem Matches.isTruthy_eq (h : Matches L v v') : v.isTruthy = v'.isTruthy := by cases h <;> rfl

theorem Matches.isCallable_eq (h : Matches L v v') : v.isCallable = v'.isCallable := by cases h <;> rfl

theorem Matches.isNullish_eq (h : Matches L v v') : v.isNullish = v'.isNullish := by cases h <;> rfl

theorem Matches.concatenates_eq (h : Matches L v v') : v.concatenates = v'.concatenates := by cases h <;> rfl

/-- A function has its name from its declaration. -/
theorem closureName_eq {c c' : Closure} (h : c.Rewrites L c') : c.name = c'.name := by
  rw [Closure.name, Closure.name, h.id.name?_eq]

theorem paramNames_eq {ps ps' : List Param} (h : List.Forall₂ (Param.Rewrites L) ps ps') :
    ps.map (·.name) = ps'.map (·.name) := by
  induction h with
  | nil => rfl
  | cons hp _ ih => rw [List.map_cons, List.map_cons, hp.name, ih]

theorem closureText_eq {c c' : Closure} (h : c.Rewrites L c') : closureText c = closureText c' := by
  rw [closureText, closureText, closureName_eq h, paramNames_eq h.params]

mutual

theorem Matches.text_eq : ∀ {v v' : Value}, Matches L v v' → v.text = v'.text
  | _, _, .array h => by rw [text, text, MatchesAll.elementTexts_eq h]
  | _, _, .function h => by rw [text, text, closureText_eq h]
  | _, _, .undefined | _, _, .null | _, _, .bool | _, _, .number | _, _, .string | _, _, .native | _, _, .object _ => rfl

theorem MatchesAll.elementTexts_eq : ∀ {vs vs' : List Value}, MatchesAll L vs vs' → elementTexts vs = elementTexts vs'
  | _, _, .nil => rfl
  | _, _, .cons hv hvs => by
    rw [elementTexts, elementTexts, Matches.isNullish_eq hv, Matches.text_eq hv, MatchesAll.elementTexts_eq hvs]

end

theorem Matches.toNumber_eq : ∀ {v v' : Value}, Matches L v v' → v.toNumber = v'.toNumber
  | _, _, .array .nil => rfl
  | _, _, .array (.cons h .nil) => by
    have ih := Matches.toNumber_eq h
    cases h <;> first | rfl | simpa only [toNumber] using ih
  | _, _, .array (.cons _ (.cons _ _)) => by simp only [toNumber]
  | _, _, .undefined | _, _, .null | _, _, .bool | _, _, .number | _, _, .string | _, _, .native | _, _, .object _
  | _, _, .function _ => rfl

mutual

theorem Matches.inspectAt_eq (depth : Nat) : ∀ {v v' : Value}, Matches L v v' → v.inspectAt depth = v'.inspectAt depth
  | _, _, .array .nil => rfl
  | _, _, .array (.cons hv hvs) => by
    simp only [inspectAt, Matches.inspectAt_eq (depth + 1) hv, MatchesAll.inspectAll_eq (depth + 1) hvs]
  | _, _, .function h => by rw [inspectAt, inspectAt, closureName_eq h]
  | _, _, .object .nil => rfl
  | _, _, .object (.cons hv hms) => by
    simp only [inspectAt, Matches.inspectAt_eq (depth + 1) hv, MatchesMembers.inspectMembers_eq (depth + 1) hms]
  | _, _, .undefined | _, _, .null | _, _, .bool | _, _, .number | _, _, .string | _, _, .native => rfl

theorem MatchesAll.inspectAll_eq (depth : Nat) : ∀ {vs vs' : List Value}, MatchesAll L vs vs' →
    inspectAll depth vs = inspectAll depth vs'
  | _, _, .nil => rfl
  | _, _, .cons hv hvs => by
    rw [inspectAll, inspectAll, Matches.inspectAt_eq depth hv, MatchesAll.inspectAll_eq depth hvs]

theorem MatchesMembers.inspectMembers_eq (depth : Nat) : ∀ {ms ms' : List (String × Value)}, MatchesMembers L ms ms' →
    inspectMembers depth ms = inspectMembers depth ms'
  | _, _, .nil => rfl
  | _, _, .cons hv hms => by
    rw [inspectMembers, inspectMembers, Matches.inspectAt_eq depth hv, MatchesMembers.inspectMembers_eq depth hms]

end

theorem Matches.consoleText_eq (h : Matches L v v') : v.consoleText = v'.consoleText := by
  have hinspect := Matches.inspectAt_eq 0 h
  cases h <;> first | rfl | exact hinspect

theorem MatchesAll.consoleLine_eq {vs vs' : List Value} (h : MatchesAll L vs vs') : consoleLine vs = consoleLine vs' := by
  have htexts : ∀ {vs vs' : List Value}, MatchesAll L vs vs' → vs.map consoleText = vs'.map consoleText := by
    intro vs
    induction vs with
    | nil =>
      rintro _ ⟨⟩
      rfl
    | cons v vs ih =>
      rintro _ (_ | ⟨hv, hvs⟩)
      rw [List.map_cons, List.map_cons, hv.consoleText_eq, ih hvs]
  rw [consoleLine, consoleLine, htexts h]

theorem Matches.plus_eq (h : Matches L v v') (hu : Matches L u u') : v.plus u = v'.plus u' := by
  rw [plus, plus, h.concatenates_eq, hu.concatenates_eq, h.text_eq, hu.text_eq, h.toNumber_eq, hu.toNumber_eq]

theorem Matches.apply_eq (h : Matches L v v') (hu : Matches L u u') (op : BinaryOp) : op.apply v u = op.apply v' u' := by
  cases op <;> simp only [BinaryOp.apply, h.plus_eq hu, h.toNumber_eq, hu.toNumber_eq]

/-- The result of an operator is a string or a number. -/
theorem apply_matches {op : BinaryOp} {w : Value} (h : op.apply v u = .ok w) : Matches L w w := by
  cases op <;> simp only [BinaryOp.apply, Except.ok.injEq, reduceCtorEq] at h
  · subst h
    unfold plus
    split
    · exact .string
    · exact .number
  all_goals
    subst h
    exact .number

/-! ## Properties -/

theorem MatchesAll.length_eq {vs vs' : List Value} (h : MatchesAll L vs vs') : vs.length = vs'.length := by
  induction vs generalizing vs' with
  | nil =>
    cases h
    rfl
  | cons v vs ih =>
    cases h with
    | cons _ hvs => rw [List.length_cons, List.length_cons, ih hvs]

theorem MatchesAll.getElem? {vs vs' : List Value} (h : MatchesAll L vs vs') (i : Nat) :
    Option.Rel (Matches L) vs[i]? vs'[i]? := by
  induction vs generalizing vs' i with
  | nil =>
    cases h
    exact .none
  | cons v vs ih =>
    cases h with
    | cons hv hvs =>
      cases i with
      | zero => exact .some hv
      | succ i => exact ih hvs i

theorem MatchesMembers.get? {ms ms' : List (String × Value)} (h : MatchesMembers L ms ms') (key : String) :
    Option.Rel (Matches L) (Table.get? ms key) (Table.get? ms' key) := by
  induction ms generalizing ms' with
  | nil =>
    cases h
    exact .none
  | cons m ms ih =>
    cases h with
    | cons hv hms =>
      simp only [Table.get?]
      split
      · exact .some hv
      · exact ih hms

theorem matches_getD {o o' : Option Value} (h : Option.Rel (Matches L) o o') :
    Matches L (o.getD .undefined) (o'.getD .undefined) := by
  cases h with
  | none => exact .undefined
  | some h => exact h

/-- Properties of matching values: both can be read, and match, or neither can. -/
theorem Matches.property (h : Matches L v v') (key : String) :
    (∃ w w', v.property key = .ok w ∧ v'.property key = .ok w' ∧ Matches L w w') ∨
      ∃ cause, v.property key = .error cause ∧ v'.property key = .error cause := by
  cases h with
  | undefined | null => exact .inr ⟨_, rfl, rfl⟩
  | bool | number | native | function _ => exact .inl ⟨_, _, rfl, rfl, .undefined⟩
  | object hms => exact .inl ⟨_, _, rfl, rfl, matches_getD (hms.get? key)⟩
  | string =>
    simp only [Value.property]
    split
    · exact .inl ⟨_, _, rfl, rfl, .number⟩
    · refine .inl ⟨_, _, rfl, rfl, ?_⟩
      cases (index? key).bind _ with
      | none => exact .undefined
      | some c => exact .string
  | array hvs =>
    simp only [Value.property, hvs.length_eq]
    split
    · exact .inl ⟨_, _, rfl, rfl, .number⟩
    · refine .inl ⟨_, _, rfl, rfl, matches_getD ?_⟩
      cases index? key with
      | none => exact .none
      | some i => exact hvs.getElem? i

end

end Value

end

end Treewalk
