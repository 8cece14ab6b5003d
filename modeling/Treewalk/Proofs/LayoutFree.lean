/-
  Treewalk.Proofs.LayoutFree — layout decides nothing.

  Where a token, a node or an error stands is all that layout has a say in. Proved: a tree runs as it
  does with its spans forgotten (`evaluate_bare`), and its outline shows none of them (`outline_bare`).
  So a source and any other text that is respaced from its lexemes have the same kinds of tokens, the
  same tree and outline or the same parse error, and the same run, up to spans (`layout_free`).
-/

import Treewalk.Run
import Treewalk.Node.Outline
import Treewalk.Proofs.Respacing
import Treewalk.Proofs.Spanless
import Treewalk.Proofs.Rewriting.Evaluation

namespace Treewalk

/-! ## Outlines -/

namespace Node

theorem kindName_bare (n : Node) : n.bare.kindName = n.kindName := by
  cases n with
  | declarator span id init => cases init <;> rfl
  | returning span argument => cases argument <;> rfl
  | _ => rfl

theorem detail_bare (n : Node) : n.bare.detail = n.detail := by
  cases n with
  | declarator span id init => cases init <;> rfl
  | returning span argument => cases argument <;> rfl
  | function span id params body => simp [bare, detail, Function.comp_def]
  | member span object property computed => cases computed <;> rfl
  | _ => rfl

mutual

theorem walk_bare (depth : Nat) : ∀ n : Node, n.bare.walk depth = (n.walk depth).map fun e => (e.1, e.2.bare)
  | .program _ body => by simp only [bare, walk, List.map_cons, walkAll_bare (depth + 1) body]
  | .variables _ _ ds => by simp only [bare, walk, List.map_cons, walkAll_bare (depth + 1) ds]
  | .declarator _ id none => by simp only [bare, walk, List.map_cons, walk_bare (depth + 1) id]
  | .declarator _ id (some e) => by
    simp only [bare, walk, List.map_cons, List.map_append, walk_bare (depth + 1) id, walk_bare (depth + 1) e]
  | .function _ id _ body => by
    simp only [bare, walk, List.map_cons, List.map_append, walk_bare (depth + 1) id, walk_bare (depth + 1) body]
  | .returning _ none => rfl
  | .returning _ (some e) => by simp only [bare, walk, List.map_cons, walk_bare (depth + 1) e]
  | .block _ body => by simp only [bare, walk, List.map_cons, walkAll_bare (depth + 1) body]
  | .expression _ e => by simp only [bare, walk, List.map_cons, walk_bare (depth + 1) e]
  | .empty _ => rfl
  | .binary _ _ l r => by
    simp only [bare, walk, List.map_cons, List.map_append, walk_bare (depth + 1) l, walk_bare (depth + 1) r]
  | .ident _ _ => rfl
  | .number _ _ => rfl
  | .string _ _ => rfl
  | .bool _ _ => rfl
  | .null _ => rfl
  | .this _ => rfl
  | .array _ es => by simp only [bare, walk, List.map_cons, walkAll_bare (depth + 1) es]
  | .member _ o p _ => by
    simp only [bare, walk, List.map_cons, List.map_append, walk_bare (depth + 1) o, walk_bare (depth + 1) p]
  | .call _ f as => by
    simp only [bare, walk, List.map_cons, List.map_append, walk_bare (depth + 1) f, walkAll_bare (depth + 1) as]
  | .unsupported _ _ => rfl

theorem walkAll_bare (depth : Nat) : ∀ ns : List Node,
    walkAll depth (bareAll ns) = (walkAll depth ns).map fun e => (e.1, e.2.bare)
  | [] => rfl
  | n :: ns => by simp only [bareAll, walkAll, List.map_append, walk_bare depth n, walkAll_bare depth ns]

end

/-- Lines show the depth, the kind and the details of nodes. -/
theorem outline_bare (n : Node) : n.bare.outline = n.outline := by
  rw [outline, outline, walk_bare, List.map_map]
  congr 2
  funext e
  rw [Function.comp_apply, outlineLine, outlineLine, kindName_bare, detail_bare]

end Node

/-! ## Runs -/

/-- Nothing but spans is rewritten. -/
def Licence.moving : Licence := ⟨fun _ _ => True, False, False⟩

theorem params_bare (ps : List Param) : List.Forall₂ (Param.Rewrites .moving) ps (ps.map fun p => ⟨p.name, .none⟩) := by
  induction ps with
  | nil => exact .nil
  | cons p ps ih => exact .cons ⟨rfl, trivial⟩ ih

mutual

theorem rewrites_bare : ∀ (p : Place) (n : Node), Rewrites .moving p n n.bare
  | _, .program _ ns => .program trivial (rewritesAll_bare .statement ns)
  | _, .variables _ _ ns => .variables trivial (rewritesAll_bare .value ns)
  | _, .declarator _ id none => .declarator trivial (rewrites_bare .value id)
  | _, .declarator _ id (some e) => .initialized trivial (rewrites_bare .value id) (rewrites_bare .value e)
  | _, .function _ id ps body =>
    .function trivial (rewrites_bare .looked id) (params_bare ps) (rewrites_bare .statement body)
  | _, .returning _ none => .leaving trivial
  | _, .returning _ (some e) => .returning trivial (rewrites_bare .value e)
  | _, .block _ ns => .block trivial (rewritesAll_bare .value ns)
  | _, .expression _ e => .expression trivial (rewrites_bare .value e)
  | _, .empty _ => .empty trivial
  | _, .binary _ _ a b => .binary trivial (rewrites_bare .looked a) (rewrites_bare .looked b)
  | _, .ident _ _ => .ident trivial
  | _, .number _ _ => .number trivial
  | _, .string _ _ => .string trivial
  | _, .bool _ _ => .bool trivial
  | _, .null _ => .null trivial
  | _, .this _ => .this trivial
  | _, .array _ ns => .array trivial (rewritesAll_bare .value ns)
  | _, .member _ o k _ => .member trivial (rewrites_bare .value o) (rewrites_bare .value k)
  | _, .call _ f ns => by
    have hns := rewritesAll_bare .looked ns
    cases f with
    | member _ o k _ => exact .memberCall trivial trivial (rewrites_bare .value o) (rewrites_bare .value k) hns
    | _ => exact .call trivial (by simp) (rewrites_bare .value _) hns
  | _, .unsupported _ _ => .unsupported trivial

theorem rewritesAll_bare : ∀ (p : Place) (ns : List Node), RewritesAll .moving p ns (Node.bareAll ns)
  | _, [] => .nil
  | p, n :: ns => .cons (rewrites_bare p n) (rewritesAll_bare p ns)

end

/-- The error without its place. -/
def EvalError.bare (e : EvalError) : EvalError := { e with span := e.span.map fun _ => .none }

theorem EvalError.Matches.bare_eq {e f : EvalError} (h : e.Matches .moving f) : e.bare = f.bare := by
  obtain ⟨cause, span, notes⟩ := e
  obtain ⟨cause', span', notes'⟩ := f
  obtain ⟨hcause, hspan, rfl⟩ := h
  obtain rfl : cause = cause' := hcause.resolve_right fun hq => hq.1
  cases hspan <;> rfl

/-- A source error without its place. -/
def SourceError.bare : SourceError → SourceError
  | .lex e => .lex { e with span := .none }
  | .parse e => .parse e.bare

def Status.bare : Status → Status
  | .completed => .completed
  | .aborted e => .aborted e.bare
  | .rejected e => .rejected e.bare

/-- How a run ended and what it printed, without where. -/
def Outcome.bare (o : Outcome) : Outcome := { o with status := o.status.bare }

/-- What is seen of an evaluation that ended. -/
def Outcome.ofResult : EStateM.Result EvalError Store Flow → Outcome
  | .ok _ s => ⟨.completed, s.out, s.err⟩
  | .error e s => ⟨.aborted e, s.out, s.err⟩

theorem Ends.bare_eq {p : Place} {r r' : EStateM.Result EvalError Store Flow} (h : Ends .moving (Flow.Matches .moving p) r r') :
    (Outcome.ofResult r).bare = (Outcome.ofResult r').bare := by
  cases h with
  | ok _ hs => rw [Outcome.ofResult, Outcome.ofResult, hs.out, hs.err]
  | error he hs =>
    simp only [Outcome.ofResult, Outcome.bare, Status.bare, he.bare_eq, hs.out, hs.err]

/-- A tree runs as it does without its spans. -/
theorem evaluate_bare {m : Machine} (hm : m.host.Uniform .moving) (tree : Node) (scope : ScopeId) (s : Store) :
    (Outcome.ofResult (m.evaluate tree scope s)).bare = (Outcome.ofResult (m.evaluate tree.bare scope s)).bare :=
  (agrees_evaluate hm (rewrites_bare .value tree) scope s s (.refl (fun _ => trivial) s)).bare_eq

theorem run_eq {options : EvalOptions} {text : String} {tree : Node} (h : parse text = .ok tree) :
    run options text = Outcome.ofResult
      ((Machine.mk options Console.host false).evaluate tree .global (Session.new ⟨options, Console.host, false⟩ true []).store) := by
  let start := Session.new ⟨options, Console.host, false⟩ true []
  have hperform : start.evaluate tree = start.perform ((Machine.mk options Console.host false).evaluate tree .global) := rfl
  unfold Session.perform at hperform
  unfold run
  simp only [h, show Session.new _ true [] = start from rfl, hperform]
  cases (Machine.mk options Console.host false).evaluate tree .global start.store <;> rfl

theorem run_of_bare {text text' : String} {tree tree' : Node} (h : parse text = .ok tree) (h' : parse text' = .ok tree')
    (hbare : tree'.bare = tree.bare) (options : EvalOptions) : (run options text').bare = (run options text).bare := by
  rw [run_eq h, run_eq h', evaluate_bare (Console.host_uniform _), evaluate_bare (Console.host_uniform _) tree, hbare]

theorem run_of_rejected {text text' : String} {e e' : SourceError} (h : parse text = .error e) (h' : parse text' = .error e')
    (hbare : e'.bare = e.bare) (options : EvalOptions) : (run options text').bare = (run options text).bare := by
  rw [run, run, h, h']
  exact congrArg (fun e => Outcome.mk (.rejected e) "" "") hbare

/-! ## Layout -/

/-- Sources whose tokens have the same kinds are read to the same tree, or rejected alike. -/
theorem parse_of_kinds {source text : String} {ts us : List Token} (h : lex source = .ok ts) (h' : lex text = .ok us)
    (hkinds : us.map (·.kind) = ts.map (·.kind)) :
    (∃ tree tree', parse source = .ok tree ∧ parse text = .ok tree' ∧ tree'.bare = tree.bare) ∨
      ∃ e e', parse source = .error (.parse e) ∧ parse text = .error (.parse e') ∧ e'.bare = e.bare := by
  have hsource : parse source = (parseTokens ts).mapError .parse := by rw [parse, h]
  have htext : parse text = (parseTokens us).mapError .parse := by rw [parse, h']
  have hparse := parseTokens_of_kinds hkinds
  generalize parseTokens ts = r at hparse hsource
  generalize parseTokens us = r' at hparse htext
  cases r with
  | ok tree =>
    cases r' with
    | ok tree' => exact .inl ⟨tree, tree', hsource, htext, Except.ok.inj hparse⟩
    | error e' => cases hparse
  | error e =>
    cases r' with
    | ok tree' => cases hparse
    | error e' => exact .inr ⟨e, e', hsource, htext, Except.error.inj hparse⟩

/-- Whatever layout stands between the lexemes of a source, which are what its tokens stand for: the tokens
    have the same kinds, parsing gives the same tree and the same outline or the same error, and running it
    prints the same and ends the same, all up to spans. -/
theorem layout_free {source text : String} {ts : List Token} (h : lex source = .ok ts)
    (hr : Lexer.Respaced (lexemes source) text.toList) :
    (source.utf8ByteSize ≤ Span.maxOffset → lexemes source = ts.dropLast.map fun t => t.span.slice 0 source.toList) ∧
    (∃ us, lex text = .ok us ∧ us.map (·.kind) = ts.map (·.kind)) ∧
    ((∃ tree tree', parse source = .ok tree ∧ parse text = .ok tree' ∧ tree'.bare = tree.bare ∧
        tree'.outline = tree.outline) ∨
      ∃ e e', parse source = .error (.parse e) ∧ parse text = .error (.parse e') ∧ e'.bare = e.bare) ∧
    ∀ options, (run options text).bare = (run options source).bare := by
  obtain ⟨us, hus, hkinds⟩ := lex_respaced h hr
  refine ⟨lexemes_eq_slices h, ⟨us, hus, hkinds⟩, ?_⟩
  rcases parse_of_kinds h hus hkinds with ⟨tree, tree', hsource, htext, hbare⟩ | ⟨e, e', hsource, htext, hbare⟩
  · have houtline : tree'.outline = tree.outline := by rw [← Node.outline_bare, hbare, Node.outline_bare]
    exact ⟨.inl ⟨tree, tree', hsource, htext, hbare, houtline⟩, run_of_bare hsource htext hbare⟩
  · exact ⟨.inr ⟨e, e', hsource, htext, hbare⟩, run_of_rejected hsource htext (congrArg SourceError.parse hbare)⟩

/-- A `return` goes on behind the end of its line. -/
theorem layout_free_return :
    let source := "function f()\x7breturn f\x7d"
    let text := "function f ( ) \x7b return //x\n f \x7d"
    ∃ ts, lex source = .ok ts ∧ Lexer.Respaced (lexemes source) text.toList ∧
      (source.utf8ByteSize ≤ Span.maxOffset → lexemes source = ts.dropLast.map fun t => t.span.slice 0 source.toList) ∧
      (∃ us, lex text = .ok us ∧ us.map (·.kind) = ts.map (·.kind)) ∧
      ((∃ tree tree', parse source = .ok tree ∧ parse text = .ok tree' ∧ tree'.bare = tree.bare ∧
          tree'.outline = tree.outline) ∨
        ∃ e e', parse source = .error (.parse e) ∧ parse text = .error (.parse e') ∧ e'.bare = e.bare) ∧
      ∀ options, (run options text).bare = (run options source).bare := by
  intro source text
  have hlexemes : lexemes source =
      ["function".toList, ['f'], ['('], [')'], ['\x7b'], "return".toList, ['f'], ['\x7d']] := by
    decide +kernel
  have hblank : Lexer.Gap [' '] := ⟨.blank rfl .nil, ' ', [], rfl, rfl⟩
  have hcomment : Lexer.Layout ('/' :: '/' :: (['x'] ++ '\n' :: [' '])) := .line (by decide) (.blank rfl .nil)
  have hline : Lexer.Gap [' ', '/', '/', 'x', '\n', ' '] := ⟨.blank rfl hcomment, ' ', _, rfl, rfl⟩
  have hr : Lexer.Respaced (lexemes source) text.toList := by
    refine ⟨[], text.toList, rfl, .nil, ?_⟩
    rw [hlexemes]
    show Lexer.Spaced _ "function f ( ) \x7b return //x\n f \x7d".toList
    refine .cons hblank (.cons hblank (.cons hblank (.cons hblank (.cons hblank ?_))))
    exact .cons hline (.cons hblank .last)
  have hok : (lex source).isOk = true := by decide +kernel
  cases h : lex source with
  | error e =>
    rw [h] at hok
    cases hok
  | ok ts => exact ⟨ts, rfl, hr, layout_free h hr⟩

end Treewalk
