/-
  Treewalk.Proofs.Straightening — blocks and dead code make no difference.

  A block makes no scope, and a `return` leaves all blocks around it. So the statements of a block may
  stand in its place, and nothing need stand behind a `return` (`Licence.straightening`), in the
  program itself and in the bodies of its functions. Proved: a program that was read runs the same
  after any number of such changes (`program_straightened`).

  The program itself goes on behind a statement that completes with a `return`, unlike a block; that
  its statements never do (`Node.IsStatement.proceeds`) is what lets a block be opened there.
-/

import Mathlib
import Treewalk.Proofs.Rewriting.Evaluation
import Treewalk.Proofs.WellShaped

namespace Treewalk

/-- Blocks may give way to their statements, and what follows a `return` to anything. -/
def Licence.straightening : Licence := ⟨Eq, False, True⟩

/-- Without moving spans or quoting names, errors are the same. -/
theorem EvalError.Matches.eq {e f : EvalError} (h : e.Matches .straightening f) : e = f := by
  obtain ⟨cause, span, notes⟩ := e
  obtain ⟨cause', span', notes'⟩ := f
  obtain ⟨hcause, hspan, rfl⟩ := h
  obtain rfl : cause = cause' := hcause.resolve_right fun hq => hq.1
  obtain rfl : span = span' := by
    cases hspan with
    | none => rfl
    | some heq => exact congrArg some heq
  rfl

/-! ## Statements one after another -/

section
variable (m : Machine) (inv : Invoke Store)

theorem evalEach_append (ms ns : List Node) (scope : ScopeId) :
    Eval.evalEach m inv (ms ++ ns) scope = Eval.evalEach m inv ms scope >>= fun _ => Eval.evalEach m inv ns scope := by
  induction ms with
  | nil =>
    rw [List.nil_append, Eval.evalEach, pure_bind]
  | cons n ms ih => rw [List.cons_append, Eval.evalEach, Eval.evalEach, bind_assoc, ih]

/-- Where no statement returns, a block runs them all. -/
theorem evalEach_eq_evalBlock {ns : List Node} {scope : ScopeId} (h : ∀ n ∈ ns, Proceeds (Eval.eval m inv n scope))
    (last : Value) : Eval.evalEach m inv ns scope = Eval.evalBlock m inv ns last scope >>= fun _ => pure () := by
  induction ns generalizing last with
  | nil => rw [Eval.evalEach, Eval.evalBlock, pure_bind]
  | cons n ns ih =>
    obtain ⟨hn, hns⟩ := List.forall_mem_cons.mp h
    rw [Eval.evalEach, evalBlock_cons, bind_assoc]
    funext s
    cases hrun : Eval.eval m inv n scope s with
    | error e t => rw [Action.bind_error hrun, Action.bind_error hrun]
    | ok flow t =>
      rw [Action.bind_ok hrun, Action.bind_ok hrun]
      cases flow with
      | normal v => rw [ih hns v]; rfl
      | returned v => cases hn _ _ _ hrun

theorem evalEach_splice {body : List Node} {scope : ScopeId} (h : ∀ n ∈ body, Proceeds (Eval.eval m inv n scope))
    (span : Span) (ns : List Node) :
    Eval.evalEach m inv (.block span body :: ns) scope = Eval.evalEach m inv (body ++ ns) scope := by
  rw [Eval.evalEach, eval_block, evalEach_append, evalEach_eq_evalBlock m inv h .undefined, bind_assoc]
  rfl

end

/-- Statements outside all functions. -/
theorem agrees_evalEach_splices {L : Licence} {m : Machine} {inv inv' : Invoke Store} (hm : m.host.Uniform L)
    (hinv : Invokes L inv inv') (scope : ScopeId) : ∀ {ns ns' : List Node}, Splices L ns ns' →
      (∀ n ∈ ns, n.IsStatement false) →
      Agrees L (fun _ _ => True) (Eval.evalEach m inv ns scope) (Eval.evalEach m inv' ns' scope)
  | _, _, .nil => fun _ => by
    rw [Eval.evalEach, Eval.evalEach]
    exact agrees_pure trivial
  | _, _, .cons hn hns => fun htop => by
    rw [Eval.evalEach, Eval.evalEach]
    refine agrees_bind (agrees_eval hm hinv hn scope) fun _ _ _ => ?_
    exact agrees_evalEach_splices hm hinv scope hns fun d hd => htop d (List.mem_cons_of_mem _ hd)
  | .block _ body :: _, _, .splice _ hns => fun htop => by
    obtain ⟨hblock, htop⟩ := List.forall_mem_cons.mp htop
    have hbody : ∀ n ∈ body, n.IsStatement false := by
      cases hblock with
      | block hbody => exact hbody
    rw [evalEach_splice m inv fun n hn => (hbody n hn).proceeds m inv rfl scope]
    exact agrees_evalEach_splices hm hinv scope hns (List.forall_mem_append.mpr ⟨hbody, htop⟩)
  | _, _, .dead _ _ => fun htop => by
    cases htop _ List.mem_cons_self

/-! ## Programs -/

theorem agrees_program {L : Licence} {m : Machine} (hm : m.host.Uniform L) {span span' : Span} (hs : L.moves span span')
    {body body' : List Node} (htop : ∀ n ∈ body, n.IsStatement false) (h : Splices L body body') (scope : ScopeId) :
    Agrees L Eq (m.evaluate (.program span body) scope) (m.evaluate (.program span' body') scope) := by
  intro s t hst
  have hroom : m.room t = m.room s := by rw [Machine.room, Machine.room, hst.depth]
  unfold Machine.evaluate
  rw [show m.room (World.store t) = m.room s from hroom, Eval.eval, Eval.eval]
  have hbody := agrees_evalEach_splices hm (invokes_invoke hm (m.room s)) scope h htop
  exact agrees_located hs (agrees_bind hbody fun _ _ _ => agrees_pure rfl) s t hst

/-- From any store, a program that was read and the same program straightened end the same: with the
    same success or the same error, the same text on the console, and the same scopes with bindings
    that match. -/
theorem program_straightened {source : String} {span : Span} {body body' : List Node}
    (h : parse source = .ok (.program span body)) (hs : Splices .straightening body body')
    {m : Machine} (hm : m.host.Uniform .straightening) (scope : ScopeId) (s : Store) :
    (∃ flow t t', m.evaluate (.program span body) scope s = .ok flow t ∧
      m.evaluate (.program span body') scope s = .ok flow t' ∧ t.Matches .straightening t') ∨
    ∃ e t t', m.evaluate (.program span body) scope s = .error e t ∧
      m.evaluate (.program span body') scope s = .error e t' ∧ t.Matches .straightening t' := by
  have htop : ∀ n ∈ body, n.IsStatement false := by
    cases parse_isProgram h with
    | program hbody => exact hbody
  have hends := agrees_program hm (show Licence.straightening.moves span span from rfl) htop hs scope s s
    (.refl (fun _ => rfl) s)
  generalize m.evaluate (.program span body) scope s = r at hends ⊢
  generalize m.evaluate (.program span body') scope s = r' at hends ⊢
  cases hends with
  | ok hflow ht =>
    subst hflow
    exact .inl ⟨_, _, _, rfl, rfl, ht⟩
  | error he ht =>
    obtain rfl := he.eq
    exact .inr ⟨_, _, _, rfl, rfl, ht⟩

/-- A block with a `return` inside a function, which makes the call behind it dead, and a block outside. -/
theorem program_straightened_nested :
    let call (place : Nat) : Node := .expression ⟨place, place + 4⟩ (.call ⟨place, place + 3⟩ (.ident ⟨place, place + 1⟩ "f") [])
    let returns : Node := .returning ⟨17, 24⟩ none
    let f (body : List Node) : Node := .function ⟨0, 33⟩ (.ident ⟨9, 10⟩ "f") [] (.block ⟨13, 33⟩ body)
    let body : List Node := [f [.block ⟨15, 26⟩ [returns], call 27], .block ⟨34, 42⟩ [call 36]]
    let body' : List Node := [f [returns], call 36]
    let m : Machine := ⟨.default, Console.host, false⟩
    parse "function f() \x7b \x7b return; \x7d f(); \x7d \x7b f(); \x7d" = .ok (.program ⟨0, 42⟩ body) ∧
    Splices .straightening body body' ∧
    ((∃ flow t t', m.evaluate (.program ⟨0, 42⟩ body) .global Store.new = .ok flow t ∧
      m.evaluate (.program ⟨0, 42⟩ body') .global Store.new = .ok flow t' ∧ t.Matches .straightening t') ∨
    ∃ e t t', m.evaluate (.program ⟨0, 42⟩ body) .global Store.new = .error e t ∧
      m.evaluate (.program ⟨0, 42⟩ body') .global Store.new = .error e t' ∧ t.Matches .straightening t') := by
  intro call returns f body body' m
  have hL (s : Span) : Licence.straightening.moves s s := rfl
  have hparse : parse "function f() \x7b \x7b return; \x7d f(); \x7d \x7b f(); \x7d" = .ok (.program ⟨0, 42⟩ body) := by cbv
  have hf : Rewrites .straightening .statement (f [.block ⟨15, 26⟩ [returns], call 27]) (f [returns]) :=
    .function rfl (.ident rfl) .nil (.straightened rfl (.splice trivial (.dead trivial (.leaving rfl))))
  have hsplices : Splices .straightening body body' := .cons hf (.splice trivial (.refl hL [call 36]))
  exact ⟨hparse, hsplices, program_straightened hparse hsplices (Console.host_uniform _) .global Store.new⟩

end Treewalk
