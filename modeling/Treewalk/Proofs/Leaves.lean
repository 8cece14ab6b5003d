/-
  Treewalk.Proofs.Leaves — the leaves of a tree say what the source says.

  A node is `Verbatim` if its name and its parameters are the texts that their spans stand for, and if a
  literal's text alone makes the one token that the literal was read from.

  Proved: the names and literals of a phrase are among its tokens (`Covers.written`), and so every node of
  an accepted source whose offsets spans can hold is verbatim (`leaves_verbatim`).
-/

import Treewalk.Proofs.SpanTree
import Treewalk.Proofs.Respacing

namespace Treewalk

open Escape (byteLength)

/-- The token that a literal is written as. -/
def Node.literal? : Node → Option TokenKind
  | .number _ x => some (.number x)
  | .string _ v => some (.string v)
  | .bool _ b => some (.keyword (if b then .trueKw else .falseKw))
  | .null _ => some (.keyword .nullKw)
  | .this _ => some (.keyword .thisKw)
  | _ => none

/-- What the node says stands where its spans are. -/
structure Verbatim (source : String) (d : Node) : Prop where
  name : ∀ name, d.name? = some name → d.span.Cuts source.toList name.toList
  params : ∀ p ∈ d.params, p.span.Cuts source.toList p.name.toList
  literal : ∀ k, d.literal? = some k → ∃ text : String, d.span.Cuts source.toList text.toList ∧
    lex text = .ok [⟨k, ⟨0, text.utf8ByteSize⟩⟩, ⟨.eof, .point text.utf8ByteSize⟩]

theorem Span.Cuts.size_le {s : Span} {source text : List Char} (h : s.Cuts source text) :
    byteLength text ≤ byteLength source := by
  obtain ⟨front, back, rfl, -⟩ := h
  simp only [Lexer.byteLength_append]
  omega

/-! ## Tokens and their texts -/

namespace Lexer

section
variable {k : TokenKind} {name : String} {lexeme rest : List Char}

theorem named_wordKind {text : String} (h : Grammar.NamesProperty (wordKind text) name) : text = name := by
  unfold wordKind at h
  cases hfound : Keyword.ofText? text with
  | some kw =>
    rw [hfound] at h
    cases h
    have htext := List.find?_some hfound
    exact (eq_of_beq htext).symm
  | none =>
    rw [hfound] at h
    cases h
    rfl

/-- The lexeme of a name, be it a reserved word, is a word. -/
theorem Munch.word (h : Munch k lexeme rest) (hk : Grammar.NamesProperty k name) :
    Spells .word lexeme ∧ k = wordKind (String.ofList lexeme) := by
  obtain ⟨s, hspells, hs⟩ := h.rule
  specialize hs .none
  cases s with
  | word =>
    cases hs
    exact ⟨hspells, rfl⟩
  | hexNumber => cases hk <;> simp only [kind, hexKind?] at hs <;> split at hs <;> simp_all
  | number => cases hd : Decimal.read? lexeme <;> cases hk <;> simp_all [kind]
  | string => cases hd : Escape.decode (lexeme.drop 1).dropLast <;> cases hk <;> simp_all [kind]
  | _ => cases hk <;> simp_all [kind]

/-- A name is its own lexeme. -/
theorem Munch.named (h : Munch k lexeme rest) (hk : Grammar.NamesProperty k name) : String.ofList lexeme = name := by
  obtain ⟨-, rfl⟩ := h.word hk
  exact named_wordKind hk

end

end Lexer

/-! ## Names and literals among tokens -/

namespace Grammar

/-- The names and the literal of a node are among the tokens. -/
structure Written (ts : List Token) (d : Node) : Prop where
  name : ∀ name, d.name? = some name → ∃ k, NamesProperty k name ∧ ⟨k, d.span⟩ ∈ ts
  params : ∀ p ∈ d.params, ⟨.ident p.name, p.span⟩ ∈ ts
  literal : ∀ k, d.literal? = some k → ⟨k, d.span⟩ ∈ ts

/-- The nodes and all below them are written among the tokens. -/
def WrittenAll (ts : List Token) (es : List Node) : Prop := ∀ e ∈ es, ∀ d ∈ e.nodes, Written ts d

section
variable {d e : Node} {es fs : List Node} {ps : List Param} {ts us : List Token}

theorem Written.mono (h : Written ts d) (hts : ts ⊆ us) : Written us d where
  name name hname := by
    obtain ⟨k, hk, hmem⟩ := h.name name hname
    exact ⟨k, hk, hts hmem⟩
  params p hp := hts (h.params p hp)
  literal k hk := hts (h.literal k hk)

theorem WrittenAll.mono (h : WrittenAll ts es) (hts : ts ⊆ us) : WrittenAll us es :=
  fun e he d hd => (h e he d hd).mono hts

theorem WrittenAll.append (h : WrittenAll ts es) (h' : WrittenAll ts fs) : WrittenAll ts (es ++ fs) :=
  fun e he => (List.mem_append.mp he).elim (h e) (h' e)

theorem writtenAll_nil : WrittenAll ts [] := nofun

theorem writtenAll_node (h : Written ts e) (hc : WrittenAll ts e.children) : WrittenAll ts [e] := by
  intro c hc' d hd
  obtain rfl := List.mem_singleton.mp hc'
  rw [Node.nodes_eq] at hd
  rcases List.mem_cons.mp hd with rfl | hd
  · exact h
  · obtain ⟨b, hb, hdb⟩ := List.mem_flatMap.mp hd
    exact hc b hb d hdb

/-- A node that says nothing itself. -/
theorem writtenAll_inner (hc : WrittenAll ts e.children) (hname : e.name? = none) (hps : e.params = [])
    (hk : e.literal? = none) : WrittenAll ts [e] :=
  writtenAll_node ⟨by simp [hname], by simp [hps], by simp [hk]⟩ hc

theorem writtenAll_ident {k : TokenKind} {name : String} {s : Span} (hk : NamesProperty k name) (hmem : ⟨k, s⟩ ∈ ts) :
    WrittenAll ts [.ident s name] := by
  refine writtenAll_node ⟨fun name' hname' => ?_, nofun, nofun⟩ writtenAll_nil
  cases hname'
  exact ⟨k, hk, hmem⟩

theorem writtenAll_literal {k : TokenKind} (hk : d.literal? = some k) (hname : d.name? = none) (hps : d.params = [])
    (hc : d.children = []) : WrittenAll [⟨k, d.span⟩] [d] := by
  refine writtenAll_node ⟨by simp [hname], by simp [hps], fun k' hk' => ?_⟩ (hc ▸ writtenAll_nil)
  rw [hk] at hk'
  cases hk'
  exact List.mem_singleton_self _

theorem Covers.params_written (h : Covers (.params ps) ts) : ∀ p ∈ ps, ⟨.ident p.name, p.span⟩ ∈ ts := by
  generalize hp : Phrase.params ps = phrase at h
  induction h generalizing ps with
  | noParams | lastParam =>
    cases hp
    simp
  | @param p qs us s _ ih =>
    cases hp
    refine List.forall_mem_cons.mpr ⟨List.mem_cons_self, fun q hq => ?_⟩
    exact List.mem_cons_of_mem _ (List.mem_cons_of_mem _ (ih rfl q hq))
  | _ => cases hp

/-- What the nodes of a phrase say is among its tokens. -/
theorem Covers.written {phrase : Phrase} (h : Covers phrase ts) : WrittenAll ts phrase.nodes := by
  induction h with
  | number | string | bool | null | this => exact writtenAll_literal rfl rfl rfl rfl
  | ident => exact writtenAll_ident (.ident _) (List.mem_singleton_self _)
  | parenthesized _ ih => exact ih.mono (by simp)
  | array _ ih => exact writtenAll_inner (ih.mono (by simp)) rfl rfl rfl
  | dotted _ hk ih =>
    exact writtenAll_inner ((ih.mono (by simp)).append (writtenAll_ident hk (by simp))) rfl rfl rfl
  | computed _ _ iho ihp => exact writtenAll_inner ((iho.mono (by simp)).append (ihp.mono (by intro t ht; simp [ht]))) rfl rfl rfl
  | call _ _ ihf iha => exact writtenAll_inner ((ihf.mono (by simp)).append (iha.mono (by intro t ht; simp [ht]))) rfl rfl rfl
  | binary _ _ ihl ihr => exact writtenAll_inner ((ihl.mono (by simp)).append (ihr.mono (by intro t ht; simp [ht]))) rfl rfl rfl
  | signed | joined | recognised | unsupportedStatement => exact writtenAll_inner writtenAll_nil rfl rfl rfl
  | noItems | noParams | lastParam | param | noStatements => exact writtenAll_nil
  | lastItem _ ih | lastDeclarator _ ih => exact ih
  | item _ _ ihe ihes | moreDeclarators _ _ ihe ihes =>
    exact (ihe.mono (by simp)).append (ihes.mono (by intro t ht; simp [ht]))
  | plain => exact writtenAll_inner (writtenAll_ident (.ident _) (List.mem_singleton_self _)) rfl rfl rfl
  | initialized _ ih =>
    refine writtenAll_inner ((writtenAll_ident (.ident _) List.mem_cons_self).append ?_) rfl rfl rfl
    exact ih.mono (by intro t ht; simp [ht])
  | declaration _ _ ih => exact writtenAll_inner (ih.mono (by intro t ht; simp [ht])) rfl rfl rfl
  | function hps _ _ ihbody =>
    refine writtenAll_node ⟨nofun, fun p hp => ?_, nofun⟩ ?_
    · have hmem := hps.params_written p hp
      simp [hmem]
    · exact (writtenAll_ident (.ident _) (by simp)).append (ihbody.mono (by intro t ht; simp [ht]))
  | returning | empty => exact writtenAll_inner writtenAll_nil rfl rfl rfl
  | returningValue _ _ ih => exact writtenAll_inner (ih.mono (by intro t ht; simp [ht])) rfl rfl rfl
  | block _ ih => exact writtenAll_inner (ih.mono (by simp)) rfl rfl rfl
  | expressionStatement _ _ ih => exact writtenAll_inner (ih.mono (by simp)) rfl rfl rfl
  | moreStatements _ _ ihs ihss => exact (ihs.mono (by simp)).append (ihss.mono (by simp))

end

end Grammar

/-! ## The tree of a text -/

section
variable {source : String} {tree d : Node} {ts : List Token}

/-- What is written among the tokens of a source is verbatim. -/
theorem Grammar.Written.verbatim (h : Written ts d)
    (hts : ∀ t ∈ ts, ∃ lexeme, Lexer.Makes source.toList lexeme t) (hfits : source.utf8ByteSize ≤ Span.maxOffset) :
    Verbatim source d where
  name name hname := by
    obtain ⟨k, hk, hmem⟩ := h.name name hname
    obtain ⟨lexeme, hmakes⟩ := hts _ hmem
    obtain ⟨rest, hmunch⟩ := hmakes.munch
    rw [← Lexer.byteLength_toList] at hfits
    rw [← hmunch.named hk, String.toList_ofList]
    exact hmakes.cuts hfits
  params p hp := by
    obtain ⟨lexeme, hmakes⟩ := hts _ (h.params p hp)
    obtain ⟨rest, hmunch⟩ := hmakes.munch
    rw [← Lexer.byteLength_toList] at hfits
    rw [← hmunch.named (.ident _), String.toList_ofList]
    exact hmakes.cuts hfits
  literal k hk := by
    obtain ⟨lexeme, hmakes⟩ := hts _ (h.literal k hk)
    obtain ⟨rest, hmunch⟩ := hmakes.munch
    rw [← Lexer.byteLength_toList] at hfits
    have hcuts := hmakes.cuts hfits
    refine ⟨String.ofList lexeme, by rwa [String.toList_ofList], ?_⟩
    rw [← Lexer.byteLength_toList, String.toList_ofList, ← Lexer.oneToken_of_le (hcuts.size_le.trans hfits)]
    exact hmunch.alone

/-- What the nodes of a tree say is among tokens that are made of lexemes. -/
theorem parse_written (h : parse source = .ok tree) :
    ∃ ts, (∀ t ∈ ts, ∃ lexeme, Lexer.Makes source.toList lexeme t) ∧ ∀ d ∈ tree.nodes, Grammar.Written ts d := by
  obtain ⟨body, last, ss, hlex, -, hcovers, rfl⟩ := parse_covers h
  obtain ⟨init, last', hsplit, -, hmakes⟩ := lex_lexemes hlex
  obtain ⟨rfl, -⟩ := List.append_inj' hsplit rfl
  have htree : Grammar.WrittenAll body [.program (spanOf (body ++ [last])) ss] :=
    Grammar.writtenAll_inner hcovers.written rfl rfl rfl
  exact ⟨body, Lexer.exists_makes hmakes, htree _ (List.mem_singleton_self _)⟩

/-- Names and parameters stand in the source where their spans are, and the text of a literal makes the
    one token that it was read from. -/
theorem leaves_verbatim (h : parse source = .ok tree) (hfits : source.utf8ByteSize ≤ Span.maxOffset) :
    ∀ d ∈ tree.nodes, Verbatim source d := by
  obtain ⟨ts, hmakes, hwritten⟩ := parse_written h
  exact fun d hd => (hwritten d hd).verbatim hmakes hfits

/-- Reserved words as names of properties, an escape in a string and several ways to write a number. -/
theorem leaves_verbatim_function : ∃ tree,
    parse "function f(a, b) \x7b return a.new.typeof('é\\x41' + 0x1F, .5e+1, this.null, [true]) \x7d" = .ok tree ∧
      ∀ d ∈ tree.nodes,
        Verbatim "function f(a, b) \x7b return a.new.typeof('é\\x41' + 0x1F, .5e+1, this.null, [true]) \x7d" d := by
  have hok : (parse "function f(a, b) \x7b return a.new.typeof('é\\x41' + 0x1F, .5e+1, this.null, [true]) \x7d").isOk =
      true := by decide +kernel
  obtain ⟨tree, h⟩ := exists_parse hok
  exact ⟨tree, h, leaves_verbatim h (by decide)⟩

end

end Treewalk
