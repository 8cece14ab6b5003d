/-
  Treewalk.Proofs.TokenFlow — every token that is read ends up in the tree, once and in its place.

  Parentheses, semicolons and commas can be written in more than one way; all other tokens are
  `significant`. A reserved word behind a point is a property's name and counts as an identifier
  (`asNames`).

  Proved: the significant tokens of a program are those of the tree it is read as, in the same order
  (`significant_print`). A list of tokens is followed by others, and the point before a property's
  name may be its last, so what a list contributes is said in front of every continuation (`Spells`).
-/

import Treewalk.Proofs.Rejection

namespace Treewalk

open Node

namespace TokenKind

/-- Tokens that a tree is written with or without. -/
def isOptional : TokenKind → Bool
  | .punct .lparen | .punct .rparen | .punct .semicolon | .punct .comma => true
  | _ => false

/-- The tokens that cannot be left out. -/
def significant (ks : List TokenKind) : List TokenKind := ks.filter (!·.isOptional)

/-- Reserved words that are property names, as the identifiers of the same text. -/
def asNames : List TokenKind → List TokenKind
  | .punct .dot :: .keyword k :: ks => .punct .dot :: .ident k.text :: asNames ks
  | k :: ks => k :: asNames ks
  | [] => []

@[simp] theorem significant_nil : significant [] = [] := rfl

@[simp] theorem significant_cons (k : TokenKind) (ks : List TokenKind) :
    significant (k :: ks) = if k.isOptional then significant ks else k :: significant ks := by
  cases h : k.isOptional <;> simp [significant, h]

@[simp] theorem significant_append (ks ls : List TokenKind) :
    significant (ks ++ ls) = significant ks ++ significant ls :=
  List.filter_append ks ls

@[simp] theorem isOptional_op (op : BinaryOp) : isOptional (.punct op.punct) = false := by
  cases op <;> rfl

theorem asNames_cons {k : TokenKind} (h : k ≠ .punct .dot) (ks : List TokenKind) :
    asNames (k :: ks) = k :: asNames ks := by
  rw [asNames]
  exact fun _ _ hk _ => h hk

@[simp] theorem asNames_op (op : BinaryOp) (ks : List TokenKind) :
    asNames (.punct op.punct :: ks) = .punct op.punct :: asNames ks := by
  cases op <;> exact asNames_cons (by simp [BinaryOp.punct]) ks

@[simp] theorem significant_commas (tss : List (List TokenKind)) :
    significant (commas tss) = (tss.map significant).flatten := by
  fun_induction commas tss with
  | case1 => rfl
  | case2 ts => simp
  | case3 ts us rest ih => simp [ih, isOptional]

@[simp] theorem significant_grouped (level : Nat) (e : Node) (ks : List TokenKind) :
    significant (grouped level e ks) = significant ks := by
  unfold grouped
  split
  · simp [isOptional]
  · rfl

end TokenKind

open TokenKind

namespace Grammar

/-- The tokens of a phrase. -/
def Phrase.print : Phrase → List TokenKind
  | .expression n | .declarator n | .statement n => n.print
  | .items ns | .declarators ns => commas (ns.map Node.print)
  | .params ps => printParams ps
  | .statements ns => (ns.map Node.print).flatten

/-- Nothing in the phrase is only recognised. -/
def Phrase.Supported : Phrase → Prop
  | .expression n | .declarator n | .statement n => n.Supported
  | .items ns | .declarators ns | .statements ns => ∀ n ∈ ns, n.Supported
  | .params _ => True

/-- In front of any other tokens, `ks` contributes the significant tokens `out`. -/
def Spells (ks out : List TokenKind) : Prop :=
  ∀ rest, significant (asNames (ks ++ rest)) = out ++ significant (asNames rest)

theorem OptionalSemicolon.spells {semi : List TokenKind} (h : OptionalSemicolon semi) : Spells semi [] := by
  intro rest
  rcases h with rfl | rfl
  · rfl
  · simp [asNames_cons, isOptional]

attribute [local simp] asNames_cons isOptional Phrase.print Node.print children

/-- One case for each rule of the grammar: the phrases below contribute their tokens, and the rule
    adds its own between them. -/
theorem Covers.spells {p : Phrase} {ts : List Token} (h : Covers p ts) (hs : p.Supported) :
    Spells (ts.map (·.kind)) (significant p.print) := by
  induction h with
  | number | string | ident | null | this | plain | empty =>
    intro rest
    simp
  | bool =>
    rename_i b
    intro rest
    cases b <;> simp
  | parenthesized _ ih =>
    intro rest
    simp [ih hs _]
  | array _ ih =>
    have hes := ih fun e he => hs.child he
    intro rest
    simp [hes _]
  | dotted _ hname ih =>
    have ho := ih (hs.child (by simp))
    intro rest
    -- Here alone the next token matters: behind the point a reserved word is a name.
    cases hname <;> simp [ho _, asNames]
  | computed _ _ iho ihp =>
    have ho := iho (hs.child (by simp))
    have hp := ihp (hs.child (by simp))
    intro rest
    simp [ho _, hp _]
  | call _ _ ihf ihas =>
    have hf := ihf (hs.child (by simp))
    have has := ihas fun a ha => hs.child (by simp [ha])
    intro rest
    simp [hf _, has _]
  | binary _ _ ihl ihr =>
    have hl := ihl (hs.child (by simp))
    have hr := ihr (hs.child (by simp))
    intro rest
    simp [hl _, hr _, -isOptional]
  | noItems | noParams | noStatements => exact fun _ => rfl
  | lastItem _ ih =>
    have he := ih (hs _ List.mem_cons_self)
    intro rest
    simpa using he rest
  | item _ _ ihe ihes =>
    obtain ⟨hs₁, hs₂⟩ := List.forall_mem_cons.mp hs
    intro rest
    simp [ihe hs₁ _, ihes hs₂ _]
  | lastParam =>
    intro rest
    simp [printParams, commas]
  | param _ ih =>
    intro rest
    simp [printParams, ih trivial _]
  | initialized _ ih =>
    have he := ih (hs.child (by simp))
    intro rest
    simp [he _]
  | lastDeclarator _ ih =>
    have hd := ih (hs _ List.mem_cons_self)
    intro rest
    simpa using hd rest
  | moreDeclarators _ _ ihd ihds =>
    obtain ⟨hs₁, hs₂⟩ := List.forall_mem_cons.mp hs
    intro rest
    simp [ihd hs₁ _, ihds hs₂ _]
  | declaration _ hsemi ih =>
    have hds := ih fun d hd => hs.child hd
    intro rest
    simp [hds _, hsemi.spells _]
  | function _ _ ihps ihbody =>
    have hbody := ihbody (hs.child (by simp))
    intro rest
    simp [ihps trivial _, hbody _]
  | returning hsemi =>
    intro rest
    simp [hsemi.spells _]
  | returningValue _ hsemi ih =>
    have he := ih (hs.child (by simp))
    intro rest
    simp [he _, hsemi.spells _]
  | block _ ih =>
    have hss := ih fun s hm => hs.child hm
    intro rest
    simp [hss _]
  | expressionStatement _ hsemi ih =>
    have he := ih (hs.child (by simp))
    intro rest
    simp [he _, hsemi.spells _]
  | moreStatements _ _ ihs ihss =>
    obtain ⟨hs₁, hs₂⟩ := List.forall_mem_cons.mp hs
    intro rest
    simp [ihs hs₁ _, ihss hs₂ _]
  | signed | joined | recognised | unsupportedStatement => exact absurd hs not_supported_unsupported

end Grammar

/-- The significant tokens of a program are those of its tree, in the same order. -/
theorem significant_print {ts : List Token} {ks : List TokenKind} {tree : Node}
    (hts : ts.map (·.kind) = ks ++ [.eof]) (heof : TokenKind.eof ∉ ks) (h : parseTokens ts = .ok tree)
    (hs : tree.Supported) : significant tree.print = significant (asNames ks) := by
  obtain ⟨body, last, ss, rfl, hlast, hss, rfl⟩ := parseTokens_covers (endsOnce_of_kinds hts heof) h
  obtain rfl : body.map (·.kind) = ks := by simpa [hlast] using hts
  have hspell := hss.spells (fun s hm => hs.child hm) []
  simpa [asNames, Grammar.Phrase.print, Node.print] using hspell.symm

/-- Parentheses around a name, a comma behind the last argument, no semicolon, a reserved word as a
    property's name. -/
theorem significant_print_reserved :
    let ks : List TokenKind := [.keyword .varKw, .ident "x", .punct .eq, .punct .lparen, .ident "a", .punct .rparen,
      .punct .dot, .keyword .ifKw, .punct .lparen, .string "b", .punct .comma, .punct .rparen, .punct .lbrace,
      .punct .rbrace]
    let ts := (ks ++ [TokenKind.eof]).map fun k => (⟨k, .none⟩ : Token)
    let call := Node.call .none (.member .none (.ident .none "a") (.ident .none "if") false) [.string .none "b"]
    let tree := Node.program .none [.variables .none .var [.declarator .none (.ident .none "x") (some call)],
      .block .none []]
    parseTokens ts = .ok tree ∧ tree.Supported ∧ significant tree.print = significant (asNames ks) := by
  intro ks ts call tree
  have hread : parseTokens ts = .ok tree := by cbv
  have hs : tree.Supported := by decide
  exact ⟨hread, hs, significant_print (by simp [ts, Function.comp_def]) (by decide) hread hs⟩

end Treewalk
