/-
  Treewalk.Proofs.Cover — the tokens a node stands for, and how its span comes from theirs.

  `Covers phrase ts`: the tokens `ts` are a written form of the phrase, and every span in it is made of
  theirs. It is the grammar without what decides between readings: no precedence, no choice of where a
  phrase ends. A semicolon behind a statement, a comma behind the last item and parentheses around an
  expression may be there or not. A node's span reaches from its first token to its last, with two exceptions:
  parentheses belong to no node, so that a node may begin or end inside its tokens, and what begins
  with an operand begins where the operand does. Of a construct that is only recognised nothing is
  known but that its brackets are level (`Nests`).

  Proved: the brackets of every phrase are level (`Covers.nests`).
-/

import Treewalk.Grammar.Expression
import Treewalk.Proofs.Ahead
import Treewalk.Proofs.Printing

namespace Treewalk

namespace Grammar

/-! ## Phrases -/

inductive Phrase where
  | expression (e : Node)
  /-- The arguments of a call or the elements of an array. -/
  | items (es : List Node)
  | params (ps : List Param)
  | declarator (d : Node)
  | declarators (ds : List Node)
  | statement (s : Node)
  | statements (ss : List Node)

/-- The name that a token stands for behind a point. -/
inductive NamesProperty : TokenKind → String → Prop
  | ident (name : String) : NamesProperty (.ident name) name
  | keyword (k : Keyword) : NamesProperty (.keyword k) k.text

/-- At most the semicolon that ends a statement. -/
def OptionalSemicolon (ks : List TokenKind) : Prop := ks = [] ∨ ks = [.punct .semicolon]

/-! ## Level brackets -/

/-- Neither a bracket nor the end of input. -/
def isLevel : TokenKind → Bool
  | .punct p => !p.isOpener && !p.isCloser
  | .eof => false
  | _ => true

/-- Of the brackets in front of the tokens, these close `n` of any kind, and those they open. -/
inductive Nests : Nat → List Token → Prop
  | nil : Nests 0 []
  | opener {p : Punct} {s : Span} {n : Nat} {ts : List Token} : p.isOpener = true → Nests (n + 1) ts →
      Nests n (⟨.punct p, s⟩ :: ts)
  | closer {p : Punct} {s : Span} {n : Nat} {ts : List Token} : p.isCloser = true → Nests n ts →
      Nests (n + 1) (⟨.punct p, s⟩ :: ts)
  | other {t : Token} {n : Nat} {ts : List Token} : isLevel t.kind = true → Nests n ts → Nests n (t :: ts)

theorem Nests.append {m n : Nat} {ts us : List Token} (h : Nests m ts) (hu : Nests n us) : Nests (m + n) (ts ++ us) := by
  induction h with
  | nil => simpa using hu
  | opener hp _ ih =>
    rw [Nat.add_right_comm] at ih
    exact .opener hp ih
  | closer hp _ ih =>
    rw [Nat.add_right_comm]
    exact .closer hp ih
  | other ht _ ih => exact .other ht ih

theorem Nests.ne_eof {n : Nat} {ts : List Token} (h : Nests n ts) : ∀ t ∈ ts, t.kind ≠ .eof := by
  induction h with
  | nil => simp
  | opener _ _ ih => simpa using ih
  | closer _ _ ih => simpa using ih
  | other ht _ ih =>
    refine List.forall_mem_cons.mpr ⟨?_, ih⟩
    intro heof
    rw [heof] at ht
    cases ht

theorem nests_replicate {p : Punct} (hp : p.isCloser = true) (s : Span) (n : Nat) :
    Nests n (List.replicate n ⟨.punct p, s⟩) := by
  induction n with
  | zero => exact .nil
  | succ n ih => exact .closer hp ih

/-! ## What is read from which tokens -/

/-- The kinds of expressions that are only recognised, and begin and end with an operand. -/
def joinedKinds : List String := ["LogicalExpression", "ConditionalExpression", "AssignmentExpression"]

inductive Covers : Phrase → List Token → Prop
  | number {s : Span} {x : Float} : Covers (.expression (.number s x)) [⟨.number x, s⟩]
  | string {s : Span} {v : String} : Covers (.expression (.string s v)) [⟨.string v, s⟩]
  | ident {s : Span} {name : String} : Covers (.expression (.ident s name)) [⟨.ident name, s⟩]
  | bool {s : Span} {b : Bool} :
      Covers (.expression (.bool s b)) [⟨.keyword (if b then .trueKw else .falseKw), s⟩]
  | null {s : Span} : Covers (.expression (.null s)) [⟨.keyword .nullKw, s⟩]
  | this {s : Span} : Covers (.expression (.this s)) [⟨.keyword .thisKw, s⟩]
  | parenthesized {e : Node} {ts : List Token} {s s' : Span} : Covers (.expression e) ts →
      Covers (.expression e) (⟨.punct .lparen, s⟩ :: (ts ++ [⟨.punct .rparen, s'⟩]))
  | array {es : List Node} {ts : List Token} {s s' : Span} : Covers (.items es) ts →
      Covers (.expression (.array (s.merge s') es)) (⟨.punct .lbracket, s⟩ :: (ts ++ [⟨.punct .rbracket, s'⟩]))
  | dotted {o : Node} {ts : List Token} {k : TokenKind} {name : String} {s s' : Span} : Covers (.expression o) ts →
      NamesProperty k name →
        Covers (.expression (.member (o.span.merge s') o (.ident s' name) false)) (ts ++ [⟨.punct .dot, s⟩, ⟨k, s'⟩])
  | computed {o p : Node} {ts us : List Token} {s s' : Span} : Covers (.expression o) ts → Covers (.expression p) us →
      Covers (.expression (.member (o.span.merge s') o p true))
        (ts ++ ⟨.punct .lbracket, s⟩ :: (us ++ [⟨.punct .rbracket, s'⟩]))
  | call {f : Node} {as : List Node} {ts us : List Token} {s s' : Span} : Covers (.expression f) ts →
      Covers (.items as) us →
        Covers (.expression (.call (f.span.merge s') f as))
          (ts ++ ⟨.punct .lparen, s⟩ :: (us ++ [⟨.punct .rparen, s'⟩]))
  | binary {op : BinaryOp} {l r : Node} {ts us : List Token} {s : Span} : Covers (.expression l) ts →
      Covers (.expression r) us →
        Covers (.expression (.binary (l.span.merge r.span) op l r)) (ts ++ ⟨.punct op.punct, s⟩ :: us)
  | signed {e : Node} {t : Token} {ts : List Token} : isSign t.tag = true → Covers (.expression e) ts →
      Covers (.expression (.unsupported (t.span.merge e.span) "UnaryExpression")) (t :: ts)
  /-- Two operands with level brackets between them. -/
  | joined {l r : Node} {ts between us : List Token} {kind : String} : kind ∈ joinedKinds → Covers (.expression l) ts →
      Nests 0 between → Covers (.expression r) us →
        Covers (.expression (.unsupported (l.span.merge r.span) kind)) (ts ++ (between ++ us))
  | recognised {t : Token} {ts : List Token} {kind : String} : Nests 0 (t :: ts) →
      Covers (.expression (.unsupported (spanOf (t :: ts)) kind)) (t :: ts)
  | noItems : Covers (.items []) []
  | lastItem {e : Node} {ts : List Token} : Covers (.expression e) ts → Covers (.items [e]) ts
  | item {e : Node} {es : List Node} {ts us : List Token} {s : Span} : Covers (.expression e) ts →
      Covers (.items es) us → Covers (.items (e :: es)) (ts ++ ⟨.punct .comma, s⟩ :: us)
  | noParams : Covers (.params []) []
  | lastParam {p : Param} : Covers (.params [p]) [⟨.ident p.name, p.span⟩]
  | param {p : Param} {ps : List Param} {ts : List Token} {s : Span} : Covers (.params ps) ts →
      Covers (.params (p :: ps)) (⟨.ident p.name, p.span⟩ :: ⟨.punct .comma, s⟩ :: ts)
  | plain {name : String} {s : Span} :
      Covers (.declarator (.declarator (s.merge s) (.ident s name) none)) [⟨.ident name, s⟩]
  | initialized {name : String} {e : Node} {ts : List Token} {s q : Span} : Covers (.expression e) ts →
      Covers (.declarator (.declarator (spanOf (⟨.ident name, s⟩ :: ⟨.punct .eq, q⟩ :: ts)) (.ident s name) (some e)))
        (⟨.ident name, s⟩ :: ⟨.punct .eq, q⟩ :: ts)
  | lastDeclarator {d : Node} {ts : List Token} : Covers (.declarator d) ts → Covers (.declarators [d]) ts
  | moreDeclarators {d : Node} {ds : List Node} {ts us : List Token} {s : Span} : Covers (.declarator d) ts →
      Covers (.declarators ds) us → Covers (.declarators (d :: ds)) (ts ++ ⟨.punct .comma, s⟩ :: us)
  | declaration {word : DeclarationWord} {ds : List Node} {ts semi : List Token} {s : Span} :
      Covers (.declarators ds) ts → OptionalSemicolon (semi.map (·.kind)) →
        Covers (.statement (.variables (spanOf (⟨.keyword word.keyword, s⟩ :: (ts ++ semi))) word ds))
          (⟨.keyword word.keyword, s⟩ :: (ts ++ semi))
  | function {name : String} {ps : List Param} {body : Node} {ts us : List Token} {s s' opened closed : Span} :
      Covers (.params ps) ts → Covers (.statement body) us →
        Covers (.statement (.function (spanOf (⟨.keyword .functionKw, s⟩ :: ⟨.ident name, s'⟩ :: ⟨.punct .lparen, opened⟩ ::
            (ts ++ ⟨.punct .rparen, closed⟩ :: us))) (.ident s' name) ps body))
          (⟨.keyword .functionKw, s⟩ :: ⟨.ident name, s'⟩ :: ⟨.punct .lparen, opened⟩ ::
            (ts ++ ⟨.punct .rparen, closed⟩ :: us))
  | returning {semi : List Token} {s : Span} : OptionalSemicolon (semi.map (·.kind)) →
      Covers (.statement (.returning (spanOf (⟨.keyword .returnKw, s⟩ :: semi)) none)) (⟨.keyword .returnKw, s⟩ :: semi)
  | returningValue {e : Node} {ts semi : List Token} {s : Span} : Covers (.expression e) ts →
      OptionalSemicolon (semi.map (·.kind)) →
        Covers (.statement (.returning (spanOf (⟨.keyword .returnKw, s⟩ :: (ts ++ semi))) (some e)))
          (⟨.keyword .returnKw, s⟩ :: (ts ++ semi))
  | block {ss : List Node} {ts : List Token} {s s' : Span} : Covers (.statements ss) ts →
      Covers (.statement (.block (s.merge s') ss)) (⟨.punct .lbrace, s⟩ :: (ts ++ [⟨.punct .rbrace, s'⟩]))
  | expressionStatement {e : Node} {ts semi : List Token} : Covers (.expression e) ts →
      OptionalSemicolon (semi.map (·.kind)) →
        Covers (.statement (.expression (e.span.merge (endOf (ts ++ semi))) e)) (ts ++ semi)
  | empty {s : Span} : Covers (.statement (.empty s)) [⟨.punct .semicolon, s⟩]
  | unsupportedStatement {t : Token} {ts : List Token} {kind : String} : Nests 0 (t :: ts) →
      Covers (.statement (.unsupported (spanOf (t :: ts)) kind)) (t :: ts)
  | noStatements : Covers (.statements []) []
  | moreStatements {s : Node} {ss : List Node} {ts us : List Token} : Covers (.statement s) ts →
      Covers (.statements ss) us → Covers (.statements (s :: ss)) (ts ++ us)

theorem optionalSemicolon_nil : OptionalSemicolon (([] : List Token).map (·.kind)) := .inl rfl

theorem optionalSemicolon_token (s : Span) : OptionalSemicolon ([⟨.punct .semicolon, s⟩].map (·.kind : Token → TokenKind)) :=
  .inr rfl

theorem Covers.expression_ne_nil {e : Node} {ts : List Token} (h : Covers (.expression e) ts) : ts ≠ [] := by
  generalize hp : Phrase.expression e = phrase at h
  induction h generalizing e with
  | joined _ _ _ _ ihl _ => simp [ihl rfl]
  | _ => first | (cases hp; done) | simp

/-! ## Phrases are level -/

theorem nests_token {t : Token} (ht : isLevel t.kind = true) : Nests 0 [t] := .other ht .nil

theorem Nests.bracketed {p q : Punct} {s s' : Span} {ts : List Token} (hp : p.isOpener = true) (hq : q.isCloser = true)
    (h : Nests 0 ts) : Nests 0 (⟨.punct p, s⟩ :: (ts ++ [⟨.punct q, s'⟩])) :=
  .opener hp (by simpa using h.append (Nests.closer hq .nil))

theorem OptionalSemicolon.nests {semi : List Token} (h : OptionalSemicolon (semi.map (·.kind))) : Nests 0 semi := by
  rcases h with h | h
  · rw [List.map_eq_nil_iff.mp h]
    exact .nil
  · obtain ⟨⟨k, s⟩, rfl, rfl⟩ := List.map_eq_singleton_iff.mp h
    exact nests_token rfl

theorem NamesProperty.nests {k : TokenKind} {name : String} {s : Span} (h : NamesProperty k name) : Nests 0 [⟨k, s⟩] := by
  cases h <;> exact nests_token rfl

theorem isLevel_op (op : BinaryOp) : isLevel (.punct op.punct) = true := by cases op <;> rfl

theorem isLevel_sign {k : TokenKind} (h : isSign k.tag = true) : isLevel k = true := by
  cases k with
  | punct p => cases p <;> first | rfl | cases h
  | _ => first | rfl | cases h

theorem Covers.nests {phrase : Phrase} {ts : List Token} (h : Covers phrase ts) : Nests 0 ts := by
  induction h with
  | number | string | ident | bool | null | this => exact nests_token rfl
  | parenthesized _ ih => exact ih.bracketed rfl rfl
  | array _ ih => exact ih.bracketed rfl rfl
  | dotted _ hk ih => exact ih.append ((nests_token rfl).append hk.nests)
  | computed _ _ iho ihp => exact iho.append (ihp.bracketed rfl rfl)
  | call _ _ ihf iha => exact ihf.append (iha.bracketed rfl rfl)
  | @binary op _ _ _ _ _ _ _ ihl ihr =>
    exact ihl.append ((nests_token (isLevel_op op)).append ihr)
  | signed hsign _ ih => exact .other (isLevel_sign hsign) ih
  | joined _ _ hb _ ihl ihr => exact ihl.append (hb.append ihr)
  | recognised h => exact h
  | noItems => exact .nil
  | lastItem _ ih => exact ih
  | item _ _ ihe ihes => exact ihe.append ((nests_token rfl).append ihes)
  | noParams => exact .nil
  | lastParam => exact nests_token rfl
  | param _ ih => exact (nests_token rfl).append ((nests_token rfl).append ih)
  | plain => exact nests_token rfl
  | initialized _ ih => exact (nests_token rfl).append ((nests_token rfl).append ih)
  | lastDeclarator _ ih => exact ih
  | moreDeclarators _ _ ihd ihds => exact ihd.append ((nests_token rfl).append ihds)
  | declaration _ hsemi ih => exact (nests_token rfl).append (ih.append hsemi.nests)
  | @function _ _ _ ts us s s' opened closed _ _ ihps ihbody =>
    have hparams : Nests 0 (⟨.punct .lparen, opened⟩ :: (ts ++ [⟨.punct .rparen, closed⟩])) := ihps.bracketed rfl rfl
    simpa using (nests_token rfl).append ((nests_token rfl).append (hparams.append ihbody))
  | returning hsemi => exact (nests_token rfl).append hsemi.nests
  | returningValue _ hsemi ih => exact (nests_token rfl).append (ih.append hsemi.nests)
  | block _ ih => exact ih.bracketed rfl rfl
  | expressionStatement _ hsemi ih => exact ih.append hsemi.nests
  | empty => exact nests_token rfl
  | unsupportedStatement h => exact h
  | noStatements => exact .nil
  | moreStatements _ _ ihs ihss => exact ihs.append ihss

end Grammar

end Treewalk
