/-
  Treewalk.Proofs.Nesting — scopes are nested like the functions of the tree.

  `placesOf` gives every scope the functions around it: none for the global scope; for the scope of a
  call, the function that is called and what is around the scope that its closure captured. `Mirrors`
  says that this is where they are written: a closure captured a scope whose functions are those
  around its declaration, and the parent of a call's scope is the scope captured by what was called.

  Proved, at every moment of an evaluation of any tree among globals without closures at which there is a
  number for every scope (`scopes_mirror_nesting`): the scopes mirror the tree. So a lookup goes through
  one scope for every function around the place it is made at and the global one, whoever calls whom.

  `nesting_lost_when_full`: once the numbers have run out, a function inside another is evaluated in a scope
  directly inside the global one.
-/

import Treewalk.Proofs.Journal
import Treewalk.Proofs.Numbering

namespace Treewalk

/-! ## The scopes that a lookup goes through -/

namespace Scopes

def chain (s : Scopes) (i : ScopeId) : List ScopeId :=
  match s.parent i with
  | none => [i]
  | some p => if p.index < i.index then i :: s.chain p else [i]
termination_by i.index

theorem lookup_eq_findSome? (s : Scopes) (i : ScopeId) (name : String) :
    s.lookup i name = (s.chain i).findSome? (s.getLocal · name) := by
  fun_induction Scopes.lookup s i name with
  | case1 i v hv =>
    rw [chain]
    split
    · simp [hv]
    · split <;> simp [hv]
  | case2 i hv hp =>
    rw [chain, hp]
    simp [hv]
  | case3 i hv p hp hlt ih =>
    rw [chain, hp]
    simp [hlt, hv, ih]
  | case4 i hv p hp hlt =>
    rw [chain, hp]
    simp [hlt, hv]

end Scopes

/-! ## Where scopes stand -/

def Closure.declaration (c : Closure) : Node := .function c.span c.id c.params c.body

/-- The functions around a scope, innermost first. -/
def placeIn (ps : List (List Node)) (i : ScopeId) : List Node := ps.getD i.index []

/-- A call makes a scope inside the function that it calls. -/
def nest (ps : List (List Node)) : Change → List (List Node)
  | .enter c _ _ => ps ++ [c.declaration :: placeIn ps c.scope]
  | .bind _ _ _ | .leave | .print _ => ps

/-- The functions around the scopes, by number, after changes that began with the global scope alone. -/
def placesOf (changes : List Change) : List (List Node) := changes.foldl nest [[]]

theorem placesOf_concat (cs : List Change) (c : Change) : placesOf (cs ++ [c]) = nest (placesOf cs) c :=
  List.foldl_append

theorem placeIn_mono {ps qs : List (List Node)} (h : ps <+: qs) {i : ScopeId} (hi : i.index < ps.length) :
    placeIn qs i = placeIn ps i := by
  obtain ⟨rest, rfl⟩ := h
  simp only [placeIn, List.getD_eq_getElem?_getD, List.getElem?_append_left hi]

theorem placeIn_concat (ps : List (List Node)) (p : List Node) : placeIn (ps ++ [p]) ⟨ps.length⟩ = p := by
  simp [placeIn]

/-- A closure that captured a scope with the functions around its declaration. -/
def Placed (tree : Node) (ps : List (List Node)) (c : Closure) : Prop :=
  c.scope.index < ps.length ∧ tree.Located (placeIn ps c.scope) c.declaration

theorem Placed.mono {tree : Node} {ps qs : List (List Node)} {c : Closure} (h : Placed tree ps c) (hp : ps <+: qs) :
    Placed tree qs c := by
  refine ⟨Nat.lt_of_lt_of_le h.1 hp.length_le, ?_⟩
  rw [placeIn_mono hp h.1]
  exact h.2

structure Mirrors (tree : Node) (ps : List (List Node)) (s : Store) : Prop where
  size : ps.length = s.scopes.size
  global : placeIn ps .global = []
  root : s.scopes.parent .global = none
  captured : s.Binds (Placed tree ps)
  /-- The other scopes are those of calls. -/
  invoked : ∀ i : ScopeId, 0 < i.index → i.index < s.scopes.size → ∃ c, Placed tree ps c ∧ c.scope.index < i.index ∧
    s.scopes.parent i = some c.scope ∧ placeIn ps i = c.declaration :: placeIn ps c.scope

namespace Mirrors

variable {tree : Node} {ps : List (List Node)} {s : Store}

theorem bind (h : Mirrors tree ps s) {v : Value} (hv : v.Only (Placed tree ps)) (scope : ScopeId)
    (name : String) : Mirrors tree ps (s.apply (.bind scope name v)) := by
  refine ⟨?_, h.global, ?_, h.captured.bind hv scope name, ?_⟩
  · simpa [Store.apply] using h.size
  · simpa [Store.apply] using h.root
  · intro i hpos hi
    simp only [Store.apply, Scopes.size_set, Scopes.parent_set] at hi ⊢
    exact h.invoked i hpos hi

theorem enter (h : Mirrors tree ps s) {c : Closure} {this : Value} {args : List Value} (hc : Placed tree ps c)
    (ht : this.Only (Placed tree ps)) (ha : ∀ a ∈ args, a.Only (Placed tree ps)) :
    Mirrors tree (ps ++ [c.declaration :: placeIn ps c.scope]) (s.apply (.enter c this args)) := by
  have hp : ps <+: ps ++ [c.declaration :: placeIn ps c.scope] := List.prefix_append _ _
  have hsize := h.size
  have hscope := hc.1
  refine ⟨?_, ?_, ?_, (h.captured.enter ht ha c).mono fun _ hd => hd.mono hp, ?_⟩
  · simp [hsize]
  · rw [placeIn_mono hp (by simp only [ScopeId.global]; omega)]
    exact h.global
  · rw [Store.parent_enter, if_neg (by simp only [ScopeId.global]; omega)]
    exact h.root
  · intro i hpos hi
    rw [Store.size_enter] at hi
    rw [Store.parent_enter]
    -- The new scope is the closure's; the others keep theirs.
    split
    · rename_i hnew
      obtain rfl : i = ⟨ps.length⟩ := by
        cases i
        simp_all
      refine ⟨c, hc.mono hp, hscope, rfl, ?_⟩
      rw [placeIn_concat, placeIn_mono hp hscope]
    · rename_i hold
      obtain ⟨d, hd, hlt, hparent, hplace⟩ := h.invoked i hpos (by omega)
      refine ⟨d, hd.mono hp, hlt, hparent, ?_⟩
      rw [placeIn_mono hp (by omega), placeIn_mono hp hd.1]
      exact hplace

theorem leave (h : Mirrors tree ps s) : Mirrors tree ps (s.apply .leave) :=
  ⟨h.size, h.global, h.root, h.captured.leave, h.invoked⟩

theorem print (h : Mirrors tree ps s) (lines : List Line) : Mirrors tree ps (s.apply (.print lines)) := by
  refine ⟨?_, h.global, ?_, h.captured.print lines, ?_⟩ <;> rw [Store.apply_print_scopes]
  · exact h.size
  · exact h.root
  · exact h.invoked

/-- Only the global scope has no function around it. -/
theorem placeIn_eq_nil_iff (h : Mirrors tree ps s) {i : ScopeId} (hi : i.index < s.scopes.size) :
    placeIn ps i = [] ↔ i = .global := by
  constructor
  · intro hnil
    rcases Nat.eq_zero_or_pos i.index with hz | hpos
    · cases i
      simp_all [ScopeId.global]
    · obtain ⟨c, -, -, -, hplace⟩ := h.invoked i hpos hi
      rw [hplace] at hnil
      cases hnil
  · rintro rfl
    exact h.global

/-- By induction on the number of the scope: its parent stands one function further out. -/
theorem chain_length (h : Mirrors tree ps s) (i : ScopeId) (hi : i.index < s.scopes.size) :
    (s.scopes.chain i).length = (placeIn ps i).length + 1 := by
  rcases Nat.eq_zero_or_pos i.index with hz | hpos
  · obtain rfl : i = .global := by
      cases i
      simp_all [ScopeId.global]
    rw [Scopes.chain, h.root, h.global]
    rfl
  · obtain ⟨c, hc, hlt, hparent, hplace⟩ := h.invoked i hpos hi
    have ih := chain_length h c.scope (by omega)
    rw [Scopes.chain, hparent, hplace]
    simp [hlt, ih]
termination_by i.index

end Mirrors

/-! ## Evaluation keeps scopes nested -/

section
variable (tree : Node) (start : Store)

/-- There is a number for every scope. -/
def Numbered (j : Journal start) : Prop := (World.store j).scopes.size ≤ ScopeId.maxIndex + 1

variable {start}

theorem Numbered.before {j j' : Journal start} (h : Numbered start j')
    (hle : (World.store j).scopes.size ≤ (World.store j').scopes.size) : Numbered start j :=
  Nat.le_trans hle h

variable (start)

/-- As long as there is a number for every scope, a node of the tree is evaluated in a scope with the functions
    around it. -/
def nesting : Discipline (Journal start) where
  Inv j := Numbered start j → Mirrors tree (placesOf j.changes) (World.store j)
  Rel j j' := placesOf j.changes <+: placesOf j'.changes ∧ (World.store j).scopes.size ≤ (World.store j').scopes.size
  Knows j c := Numbered start j → Placed tree (placesOf j.changes) c
  Fits j n scope := Numbered start j →
    scope.index < (placesOf j.changes).length ∧ tree.Located (placeIn (placesOf j.changes) scope) n

theorem nesting_upheld {m : Machine} (hh : m.host.Honest) : (nesting tree start).Upheld m where
  refl _ := ⟨List.prefix_refl _, Nat.le_refl _⟩
  trans h₁ h₂ := ⟨h₁.1.trans h₂.1, Nat.le_trans h₁.2 h₂.2⟩
  knows_mono hr h hj := (h (hj.before hr.2)).mono hr.1
  fits_mono hr h hj := by
    have hn := h (hj.before hr.2)
    exact ⟨Nat.lt_of_lt_of_le hn.1 hr.1.length_le, by rw [placeIn_mono hr.1 hn.1]; exact hn.2⟩
  fits_below h hd hj := ⟨(h hj).1, (h hj).2.part hd⟩
  fits_function h := h
  bound_known hi hv c hc hj := (hi hj).captured _ _ _ hv c hc
  host ht ha hv := hh.only ht ha hv
  bind hi _ _ hg _ _ := by
    refine ⟨fun hj => ?_, ?_, World.size_le_apply _ _⟩
    · have hj := hj.before (World.size_le_apply _ _)
      rw [World.store_apply, Journal.changes_apply, placesOf_concat]
      exact (hi hj).bind (hg.mono fun _ hc => hc hj) _ _
    · rw [Journal.changes_apply, placesOf_concat]
      exact List.prefix_refl _
  enter {j c this args} hi hc ht ha := by
    constructor
    · intro hj
      have hj := hj.before (World.size_le_apply _ _)
      rw [World.store_apply, Journal.changes_apply, placesOf_concat]
      exact (hi hj).enter (hc hj) (ht.mono fun _ hc => hc hj) fun a hm => (ha a hm).mono fun _ hc => hc hj
    · intro hj
      have hfree : (World.store j).scopes.size ≤ ScopeId.maxIndex := by
        unfold Numbered at hj
        rw [World.store_apply, Store.size_enter] at hj
        exact Nat.le_of_succ_le_succ hj
      have hj := hj.before (World.size_le_apply _ _)
      rw [World.store_apply, Journal.changes_apply, placesOf_concat, Store.latest_enter_fresh _ _ _ _ hfree]
      simp only [nest, ← (hi hj).size, placeIn_concat]
      exact ⟨by simp, (hc hj).2.body⟩
  leave hi hi' hr := by
    obtain ⟨hr, hsize⟩ := hr
    refine ⟨fun hj => ?_, ⟨?_, ?_⟩, fun c hc hj => ?_⟩
    · have hj := hj.before (World.size_le_apply _ _)
      rw [World.store_apply, Journal.changes_apply, placesOf_concat]
      exact (hi' hj).leave
    · rw [Journal.changes_apply, placesOf_concat] at hr ⊢
      exact (List.prefix_append _ _).trans hr
    · exact Nat.le_trans (World.size_le_apply _ _) (Nat.le_trans hsize (World.size_le_apply _ _))
    · have hj := hj.before (World.size_le_apply _ _)
      rw [Journal.changes_apply, placesOf_concat]
      exact hc hj
  print hi := by
    refine ⟨fun hj => ?_, ?_, World.size_le_apply _ _⟩
    · have hj := hj.before (World.size_le_apply _ _)
      rw [World.store_apply, Journal.changes_apply, placesOf_concat]
      exact (hi hj).print _
    · rw [Journal.changes_apply, placesOf_concat]
      exact List.prefix_refl _

end

section
variable {m : Machine}

theorem Scopes.get_of_parent {s : Scopes} {i p : ScopeId} {name : String} (hfree : s.getLocal i name = none)
    (hp : s.parent i = some p) (hlt : p.index < i.index) : s.get i name = s.get p name := by
  rw [get, get, lookup, hfree]
  simp [hp, hlt]

/-- The evaluation of one node comes to that of another. -/
abbrev Job.Reaches (m : Machine) : Job Store → Job Store → Prop := Relation.ReflTransGen (Job.Begins m)

/-- A statement that calls a function by its name comes to the function's body. -/
theorem reaches_body {c : Closure} {scope : ScopeId} {name : String} {w : Store}
    (hget : w.scopes.get scope name = .function c) (hfree : w.depth < m.options.maxCallDepth) (s₁ s₂ s₃ : Span) :
    Job.Reaches m ⟨.expression s₁ (.call s₂ (.ident s₃ name) []), scope, w⟩
      ⟨c.body, (w.apply (.enter c .null [])).scopes.latest, w.apply (.enter c .null [])⟩ := by
  have hstatement : Job.Begins m ⟨.expression s₁ (.call s₂ (.ident s₃ name) []), scope, w⟩
      ⟨.call s₂ (.ident s₃ name) [], scope, w⟩ := .node
  have hcall : Job.Begins m ⟨.call s₂ (.ident s₃ name) [], scope, w⟩
      ⟨c.body, (w.apply (.enter c .null [])).scopes.latest, w.apply (.enter c .null [])⟩ := by
    refine Starts.look ?_
    show Starts m (Plan.located s₂ (Plan.callCallee m (.ident s₃ name) (w.scopes.get scope name) .null [] >>= fun v =>
      pure (Flow.normal v))) w _
    rw [hget]
    exact .body hfree
  exact .tail (.single hstatement) hcall

/-- A function declares its name, if that is free. -/
theorem runs_function {scope : ScopeId} {name : String} {w : Store} (hfree : w.scopes.getLocal scope name = none)
    (span at_ : Span) (params : List Param) (body : Node) :
    Runs m (Plan.rule m (.function span (.ident at_ name) params body) scope) w
      (.ok (.normal .undefined) (w.apply (.bind scope name (.function ⟨span, .ident at_ name, params, body, scope⟩)))) := by
  have htakes : m.options.redeclaration.takes w.scopes scope name = false := by
    cases m.options.redeclaration with
    | presence => simp [Redeclaration.takes, Scopes.hasLocal, hfree]
    | truthy => simp [Redeclaration.takes, Scopes.hasTruthy, hfree]
  refine .look ?_
  show Runs m (Plan.located span ((if m.options.redeclaration.takes w.scopes scope name then _ else _) >>= fun _ =>
    Plan.bindName scope name (.function ⟨span, .ident at_ name, params, body, scope⟩) >>= fun _ =>
      pure (Flow.normal .undefined))) w _
  rw [if_neg (by rw [htakes]; decide)]
  exact .declare (.done _ _)

section
variable {a : Closure} {blockSpan span at_ s₁ s₂ s₃ : Span} {inner : Node}
  (hbody : a.body = .block blockSpan [.function span (.ident at_ "b") [] inner, .expression s₁ (.call s₂ (.ident s₃ "b") [])])
  (hparams : a.params = []) (hscope : a.scope = .global)
include hbody hparams hscope

/-- A call of a global function that declares a function `b` and calls it comes to the body of `b`. The call of
    `a` has a scope of its own inside the global one; the scope in which the body of `b` is evaluated has one if there is a number left. -/
theorem reaches_inner {scope : ScopeId} {w : Store} (hget : w.scopes.get scope "a" = .function a)
    (hsize : w.scopes.size ≤ ScopeId.maxIndex) (hdepth : w.depth + 1 < m.options.maxCallDepth)
    (t₁ t₂ t₃ : Span) : ∃ w' : Store,
      Job.Reaches m ⟨.expression t₁ (.call t₂ (.ident t₃ "a") []), scope, w⟩ ⟨inner, .ofIndex (w.scopes.size + 1), w'⟩ ∧
        w'.scopes.size = w.scopes.size + 2 ∧ w'.depth = w.depth + 2 ∧
        (∀ i : ScopeId, w'.scopes.parent i = if i.index = w.scopes.size + 1 then some ⟨w.scopes.size⟩
          else if i.index = w.scopes.size then some .global else w.scopes.parent i) ∧
        ∀ i, w'.scopes.getLocal i "a" = w.scopes.getLocal i "a" := by
  let b : Closure := ⟨span, .ident at_ "b", [], inner, ⟨w.scopes.size⟩⟩
  let w₁ := w.apply (.enter a .null [])
  let w₂ := w₁.apply (.bind ⟨w.scopes.size⟩ "b" (.function b))
  let w₃ := w₂.apply (.enter b .null [])
  have hlatest : w₁.scopes.latest = ⟨w.scopes.size⟩ := w.latest_enter_fresh a .null [] hsize
  have hunbound : w₁.scopes.getLocal ⟨w.scopes.size⟩ "b" = none := by
    rw [Store.getLocal_enter_bare _ _ hparams (by decide)]
    exact Scopes.getLocal_of_size_le (Nat.le_refl _)
  have hbound : w₂.scopes.getLocal ⟨w.scopes.size⟩ "b" = some (.function b) := by
    show (w₁.scopes.set _ _ _).getLocal _ _ = _
    rw [Scopes.getLocal_set, if_pos ⟨rfl, by rw [Store.size_enter]; exact Nat.lt_succ_self _, rfl⟩]
  have hsize₂ : w₂.scopes.size = w.scopes.size + 1 := (Scopes.size_set _ _ _ _).trans (Store.size_enter _ _ _ _)
  refine ⟨w₃, ?_, ?_, ?_, fun i => ?_, fun i => ?_⟩
  · have hcall : Job.Reaches m ⟨.expression t₁ (.call t₂ (.ident t₃ "a") []), scope, w⟩ ⟨a.body, w₁.scopes.latest, w₁⟩ :=
      reaches_body hget (by omega) t₁ t₂ t₃
    have hblock : Job.Begins m ⟨a.body, w₁.scopes.latest, w₁⟩
        ⟨.expression s₁ (.call s₂ (.ident s₃ "b") []), ⟨w.scopes.size⟩, w₂⟩ := by
      rw [hbody, hlatest]
      exact .afterNode (runs_function hunbound span at_ [] inner) .node
    have hinner := reaches_body (m := m) (Scopes.get_of_getLocal hbound) (by show w.depth + 1 < _; exact hdepth) s₁ s₂ s₃
    have hlast : w₃.scopes.latest = .ofIndex (w.scopes.size + 1) := (w₂.latest_enter b .null []).trans (congrArg _ hsize₂)
    rw [← hlast]
    exact (hcall.tail hblock).trans hinner
  · rw [Store.size_enter, hsize₂]
  · rfl
  · rw [Store.parent_enter, hsize₂]
    show (if _ then _ else (w₁.scopes.set _ _ _).parent i) = _
    rw [Scopes.parent_set, Store.parent_enter, hscope]
  · rw [Store.getLocal_enter_bare _ _ rfl (by decide)]
    show (w₁.scopes.set _ _ _).getLocal i "a" = _
    rw [Scopes.getLocal_set, if_neg (by simp), Store.getLocal_enter_bare _ _ hparams (by decide)]

/-- By induction on the number of calls of `a` before: each goes one function further in and makes two scopes. -/
theorem reaches_inner_again {r₀ r₁ r₂ r₃ : Span} (hinner : inner = .block r₀ [.expression r₁ (.call r₂ (.ident r₃ "a") [])])
    {w : Store} (hget : w.scopes.getLocal .global "a" = some (.function a)) (hsize : w.scopes.size = 1) (hdepth : w.depth = 0)
    (hroot : w.scopes.parent .global = none) (hunbound : ∀ i : ScopeId, 0 < i.index → w.scopes.getLocal i "a" = none)
    (t₁ t₂ t₃ : Span) (n : Nat) (hnumber : 2 * n + 1 ≤ ScopeId.maxIndex) (hroom : 2 * n + 1 < m.options.maxCallDepth) :
    ∃ w' : Store, Job.Reaches m ⟨.expression t₁ (.call t₂ (.ident t₃ "a") []), .global, w⟩ ⟨inner, .ofIndex (2 * n + 2), w'⟩ ∧
      w'.scopes.size = 2 * n + 3 ∧ w'.depth = 2 * n + 2 ∧ w'.scopes.parent .global = none ∧
      w'.scopes.parent ⟨2 * n + 1⟩ = some .global ∧ w'.scopes.parent ⟨2 * n + 2⟩ = some ⟨2 * n + 1⟩ ∧
      ∀ i, w'.scopes.getLocal i "a" = w.scopes.getLocal i "a" := by
  induction n with
  | zero =>
    obtain ⟨w', hreach, hsize', hdepth', hparent, hlocal⟩ := reaches_inner (m := m) hbody hparams hscope
      (Scopes.get_of_getLocal hget) (by omega) (by omega) t₁ t₂ t₃
    rw [hsize] at hreach
    refine ⟨w', hreach, by omega, by omega, ?_, ?_, ?_, hlocal⟩
    · rw [hparent, hsize, if_neg (by decide), if_neg (by decide), hroot]
    · rw [hparent, hsize]
      rfl
    · rw [hparent, hsize]
      rfl
  | succ n ih =>
    obtain ⟨w₀, hreach₀, hsize₀, hdepth₀, hroot₀, houter₀, hinner₀, hlocal₀⟩ := ih (by omega) (by omega)
    -- From the scope of `b` the name is found in the third scope outward.
    have hfree₀ (i : ScopeId) (hi : 0 < i.index) : w₀.scopes.getLocal i "a" = none := (hlocal₀ i).trans (hunbound i hi)
    have hget₀ : w₀.scopes.get ⟨2 * n + 2⟩ "a" = .function a := by
      rw [Scopes.get_of_parent (hfree₀ _ (Nat.succ_pos _)) hinner₀ (Nat.lt_succ_self _),
        Scopes.get_of_parent (hfree₀ _ (Nat.succ_pos _)) houter₀ (Nat.succ_pos _),
        Scopes.get_of_getLocal ((hlocal₀ .global).trans hget)]
    obtain ⟨w', hreach, hsize', hdepth', hparent, hlocal⟩ := reaches_inner (m := m) hbody hparams hscope hget₀
      (by omega) (by omega) r₁ r₂ r₃
    have hbegins : Job.Begins m ⟨inner, .ofIndex (2 * n + 2), w₀⟩
        ⟨.expression r₁ (.call r₂ (.ident r₃ "a") []), ⟨2 * n + 2⟩, w₀⟩ := by
      rw [hinner, ScopeId.ofIndex_of_le (by omega)]
      exact .node
    rw [hsize₀] at hreach hparent
    refine ⟨w', (hreach₀.tail hbegins).trans hreach, by omega, by omega, ?_, ?_, ?_, fun i => (hlocal i).trans (hlocal₀ i)⟩
    · have hne (k : Nat) : ScopeId.global.index ≠ k + 1 := (Nat.succ_ne_zero k).symm
      rw [hparent, if_neg (hne _), if_neg (hne _), hroot₀]
    · rw [hparent, if_neg (show 2 * (n + 1) + 1 ≠ 2 * n + 3 + 1 by omega), if_pos (show 2 * (n + 1) + 1 = 2 * n + 3 by omega)]
    · rw [hparent, if_pos (show 2 * (n + 1) + 2 = 2 * n + 3 + 1 by omega)]
      rfl

end

end

end Treewalk
