/-
  Treewalk.Proofs.Prediction.Expressions — how the parsers of expressions run.

  An expression is begun with a name and ends in front of any token of `closers`: no loop over
  operators or member accesses goes on there. What an expression is read from covers it.

  Proved: if the parsers one level further in settle lists of up to `L` tokens, the parsers of
  expressions settle lists of up to one more (`settles_expressionAt`).
-/

import Treewalk.Proofs.Prediction
import Treewalk.Proofs.Cover
import Treewalk.Grammar.Program

namespace Treewalk.Grammar

/-! ## Contracts -/

/-- What a completion of an expression is made of. -/
def fresh : Set TokenKind := {.ident "x"}

/-- Where every expression ends. -/
def closers : Set TokenKind := {.punct .rparen, .punct .rbracket, .punct .rbrace, .punct .colon, .eof}

/-- Where every statement ends. -/
def ends : Set TokenKind := {.punct .rbrace, .eof}

abbrev Contract.expression : Contract Node := ⟨fresh, closers, fun ts e => Covers (.expression e) ts⟩

/-- The parser goes on from an expression that was read from the tokens `ts`. -/
abbrev Contract.suffix (ts : List Token) : Contract Node :=
  ⟨closers, closers, fun us e => Covers (.expression e) (ts ++ us)⟩

theorem expression_strict : Contract.Strict .expression := by simp [Contract.Strict, closers, fresh]

abbrev Contract.statement : Contract Node := ⟨{.punct .semicolon}, ends, fun ts s => Covers (.statement s) ts⟩

/-- A level is good for lists of as many tokens as it is deep; of these, lists of up to `L` tokens are
    settled. -/
structure Predicts (L : Nat) : Prop where
  expression : ∀ inBody past, Settles (fun n => n) past (fun n => (ofDepth n).expression inBody) .expression L
  exponent : ∀ inBody past, Settles (fun n => n) past (fun n => (ofDepth n).exponent inBody) .expression L
  unary : ∀ inBody past, Settles (fun n => n) past (fun n => (ofDepth n).unary inBody) .expression L
  primary : ∀ inBody past, Settles (fun n => n) past (fun n => (ofDepth n).primary inBody) .expression L
  statement : ∀ inBody past, Settles (fun n => n) past (fun n => (ofDepth n).statement inBody) .statement L

section
variable {L : Nat} {past : List Token}

theorem settles_propertyName {size : Nat → Nat} (X : Set TokenKind) : Settles size past (fun _ => propertyName)
    ⟨fresh, X, fun ts p => ∃ k s name, ts = [⟨k, s⟩] ∧ p = .ident s name ∧ NamesProperty k name⟩ L := by
  refine settles_token (fun t => .ident t.span (spelledName t.kind)) (.ident "x") {k | ∃ name, NamesProperty k name}
    ⟨_, .ident "x"⟩ (by rintro ⟨_, ⟨⟩⟩) ?_ ?_ ?_
  · rintro ⟨k, s⟩ ⟨name, hname⟩
    cases hname with
    | ident name => exact ⟨_, s, name, rfl, rfl, .ident name⟩
    | keyword k => exact ⟨_, s, k.text, rfl, rfl, .keyword k⟩
  · rintro n c ⟨name, hname⟩
    have hcur : c.current.kind = c.kind := rfl
    rw [hcur]
    unfold propertyName
    generalize c.kind = k at hname
    cases hname <;> rfl
  · intro t ht
    refine ⟨⟨.expectedIdentifier t.tag, t.span, none⟩, ⟨rfl, rfl⟩, ?_⟩
    rintro n c rfl
    unfold propertyName
    split
    · rename_i name hc
      exact absurd ⟨name, show NamesProperty c.kind name by rw [hc]; exact .ident name⟩ ht
    · rename_i k hc
      exact absurd ⟨k.text, show NamesProperty c.kind k.text by rw [hc]; exact .keyword k⟩ ht
    · rfl

/-! ## Loops -/

theorem bound_eq {m k : Nat} (h : m ≤ k) (hm : 0 < m) : k = (k - 1) + 1 := by omega

/-- Whether a list in brackets is over. -/
theorem over_iff {close : Punct} {c : Cursor} :
    (c.check (.punct close) || c.atEnd) = true ↔ c.kind = .punct close ∨ c.kind = .eof := by
  rw [Bool.or_eq_true, Cursor.atEnd, beq_iff_eq]
  exact or_congr ⟨Cursor.kind_of_check, Cursor.check_of_kind⟩ TokenKind.tag_eq_eof

/-- Items with commas between them up to a bracket. -/
theorem settles_separated {α : Type} {size k : Nat → Nat} {close : Punct} (hclose : close ≠ .comma) (item : Bounded α)
    {list : Nat → Nat → Cursor → Parsed (List α × Cursor)}
    (hlist : ∀ n k c, list n (k + 1) c =
      if c.check (.punct close) || c.atEnd then .ok ([], c)
      else do
        let (a, c) ← item n c
        match c.eats? .comma with
        | none => return ([a], c)
        | some c =>
          let (as, c) ← list n k c
          return (a :: as, c))
    {one : List Token → α → Prop} {all : List Token → List α → Prop} (hnil : all [] [])
    (hlast : ∀ ts a, one ts a → all ts [a])
    (hmore : ∀ ts us s a as, one ts a → all us as → all (ts ++ ⟨.punct .comma, s⟩ :: us) (a :: as))
    (hitem : ∀ past, Settles size past item ⟨fresh, {.punct close}, one⟩ L) (hk : ∀ n, size n ≤ k n) :
    Settles size past (fun n => list n (k n)) ⟨{.punct close}, {.punct close}, all⟩ L := by
  induction L generalizing size k past with
  | zero => exact settles_zero
  | succ L ih =>
    refine Settles.branch {k | ¬(k = .punct close ∨ k = .eof)} ?_ (settles_ok [] hnil Set.Subset.rfl) (by simp) (by simp) ?_
    · intro t ht
      apply RunsAt.becomes (fun u => ¬(u.kind = .punct close ∨ u.kind = .eof)) ht
      case hR =>
        intro n c hc hpos
        rw [bound_eq (hk n) hpos, hlist, if_neg (mt over_iff.mp hc)]
      case h =>
        refine ((hitem past).runs t).bind fun ts a ha => ?_
        apply settles_eats .comma fun _ => [a]
        case hnone =>
          intro n c hc _
          simp only [hc]
          rfl
        case hsome =>
          intro n c c' hc _
          simp only [hc]
          rfl
        case h =>
          intro s
          refine Settles.bind (ih (fun past => (hitem past).less) fun n => Nat.sub_le_sub_right (hk n) 1) fun us as has => ?_
          exact settles_ok (a :: as) (by simpa using hmore ts us s a as ha has) Set.Subset.rfl
        case hX => simpa using hclose.symm
        case hresult => simpa using hlast ts a ha
      case hX => simp [fresh]
    · intro n c hc hpos
      rw [bound_eq (hk n) hpos, hlist, if_pos (over_iff.mpr (not_not.mp hc))]

theorem settles_commaList (close : Punct) {size k : Nat → Nat} {item : Bounded Node} (hclose : .punct close ∈ closers)
    (hitem : ∀ past, Settles size past item .expression L) (hk : ∀ n, size n ≤ k n) :
    Settles size past (fun n => commaList (item n) close (k n))
      ⟨{.punct close}, {.punct close}, fun ts es => Covers (.items es) ts⟩ L :=
  settles_separated (by rintro rfl; simp [closers] at hclose) item (fun _ _ _ => rfl) .noItems (fun _ _ => .lastItem)
    (fun _ _ _ _ _ => .item) (fun past => (hitem past).before (Set.singleton_subset_iff.mpr hclose)) hk

theorem settles_params {size k : Nat → Nat} (hk : ∀ n, size n ≤ k n) :
    Settles size past (fun n => params (k n)) ⟨{.punct .rparen}, {.punct .rparen}, fun ts ps => Covers (.params ps) ts⟩ L := by
  refine settles_separated (by simp) (fun _ c => within .functionParams (expectIdent c)) (fun _ _ _ => rfl)
    .noParams ?_ ?_ (fun past => (settles_expectIdent {.punct .rparen}).within) hk
  · rintro _ p rfl
    exact .lastParam
  · rintro _ us s p ps rfl hps
    exact .param hps

/-- Statements one behind the other, up to a token at which the loop is over. -/
theorem settles_sequence {size k : Nat → Nat} {isOver : Cursor → Bool} {O : Set TokenKind} {close : TokenKind}
    (hover : ∀ c, isOver c = true ↔ c.kind ∈ O) (hclose : close ∈ O) (hends : close ∈ ends) {item : Bounded Node}
    {list : Nat → Nat → Cursor → Parsed (List Node × Cursor)}
    (hlist : ∀ n k c, list n (k + 1) c =
      if isOver c then .ok ([], c)
      else do
        let (s, c) ← item n c
        let (ss, c) ← list n k c
        return (s :: ss, c))
    (hitem : ∀ past, Settles size past item .statement L) (hk : ∀ n, size n ≤ k n) :
    Settles size past (fun n => list n (k n)) ⟨{close}, {close}, fun ts ss => Covers (.statements ss) ts⟩ L := by
  induction L generalizing size k past with
  | zero => exact settles_zero
  | succ L ih =>
    refine Settles.branch {k | k ∉ O} ?_ (settles_ok [] .noStatements Set.Subset.rfl) (by simpa) (by simpa) ?_
    · intro t ht
      have hstrict : ¬ ({close} : Set TokenKind) ⊆ {.punct .semicolon} := by
        rintro hsub
        cases hsub rfl
        simp [ends] at hends
      apply RunsAt.becomes (fun u => u.kind ∉ O) ht
      case hR =>
        intro n c hc hpos
        rw [bound_eq (hk n) hpos, hlist, if_neg (mt (hover c).mp hc)]
      case h =>
        have hfirst := ((hitem past).before (Set.singleton_subset_iff.mpr hends)).runs t
        refine hfirst.bind_strict hstrict fun ts s hs => ?_
        refine Settles.bind (ih (fun past => (hitem past).less) fun n => Nat.sub_le_sub_right (hk n) 1) fun us ss hss => ?_
        exact settles_ok (s :: ss) (by simpa using Covers.moreStatements hs hss) Set.Subset.rfl
      case hX => exact hstrict
    · intro n c hc hpos
      rw [bound_eq (hk n) hpos, hlist, if_pos ((hover c).mpr (not_not.mp hc))]

theorem settles_statements {size k : Nat → Nat} {item : Bounded Node}
    (hitem : ∀ past, Settles size past item .statement L) (hk : ∀ n, size n ≤ k n) :
    Settles size past (fun n => statements (item n) (k n))
      ⟨{.punct .rbrace}, {.punct .rbrace}, fun ts ss => Covers (.statements ss) ts⟩ L :=
  settles_sequence (O := {k | k = .punct .rbrace ∨ k = .eof}) (fun _ => over_iff) (.inl rfl) (.inl rfl)
    (fun _ _ _ => rfl) hitem hk

theorem settles_dottedNames {size k : Nat → Nat} (hk : ∀ n, size n ≤ k n) :
    Settles size past (fun n => dottedNames (k n)) ⟨closers, closers, fun ts _ => Nests 0 ts⟩ L := by
  induction L generalizing size k past with
  | zero => exact settles_zero
  | succ L ih =>
    apply settles_eats .dot fun _ => ()
    case hnone =>
      intro n c hc hpos
      rw [bound_eq (hk n) hpos, dottedNames, hc]
    case hsome =>
      intro n c c' hc hpos
      rw [bound_eq (hk n) hpos, dottedNames, hc]
    case h =>
      intro s
      refine Settles.bind (settles_propertyName closers) ?_
      rintro _ _ ⟨k', s', name, rfl, rfl, hname⟩
      refine (ih fun n => Nat.sub_le_sub_right (hk n) 1).weaken Set.Subset.rfl Set.Subset.rfl fun us _ hus => ?_
      exact (nests_token rfl).append (hname.nests.append hus)
    case hX => simp [closers]
    case hresult => exact .nil

/-! ## Blocks and functions -/

theorem settles_blockBody {size k : Nat → Nat} {item : Bounded Node} (opened : Span) (X : Set TokenKind)
    (hitem : ∀ past, Settles size past item .statement L) (hk : ∀ n, size n ≤ k n) :
    Settles size past (fun n c => do
        let (body, c) ← statements (item n) (k n) c
        let (_, c) ← within .block (expectClosing .rbrace .lbrace opened c)
        return (.block (c.spanFrom opened) body, c))
      ⟨{.punct .rbrace}, X, fun ts s => Covers (.statement s) (⟨.punct .lbrace, opened⟩ :: ts)⟩ L := by
  refine Settles.bind (settles_statements hitem hk) fun ts body hbody => ?_
  refine Settles.bind (settles_expectClosing .rbrace .lbrace opened X).within ?_
  rintro _ closed rfl
  refine settles_pure (fun last => Node.block (opened.merge last) body) ?_ Set.Subset.rfl
  have hblock : Covers (.statement (.block (opened.merge closed) body))
      (⟨.punct .lbrace, opened⟩ :: (ts ++ [⟨.punct .rbrace, closed⟩])) := .block hbody
  simpa using hblock

section
variable (h : Predicts L) (inBody : Bool) {t : Token}
include h

theorem settles_block (X : Set TokenKind) : Settles (fun n => n) past (fun n => block ((ofDepth n).statement inBody) n)
    ⟨{.punct .lbrace}, X, fun ts s => Covers (.statement s) ts⟩ L := by
  refine Settles.bind (settles_expect .lbrace {.punct .rbrace}) ?_
  rintro _ opened rfl
  exact settles_blockBody opened X (h.statement inBody) fun n => Nat.le_refl n

theorem runs_block (X : Set TokenKind) :
    RunsAt (fun n => n + 1) past (fun n => block ((ofDepth n).statement inBody) n)
      ⟨{.punct .lbrace}, X, fun ts s => Covers (.statement s) ts⟩ (L + 1) t := by
  refine RunsAt.bind_strict ((settles_expect .lbrace {.punct .rbrace}).runs t) (by simp [Contract.Strict]) ?_
  rintro _ opened rfl
  exact settles_blockBody opened X (h.statement inBody) fun n => Nat.le_refl n

/-- The parameters of a function in their parentheses, and its body. -/
theorem settles_paramsAndBody (X : Set TokenKind) : Settles (fun n => n) past (fun n => paramsAndBody (ofDepth n) n)
    ⟨{.punct .lparen}, X, fun ts f => ∃ us vs s s', ts = ⟨.punct .lparen, s⟩ :: (us ++ ⟨.punct .rparen, s'⟩ :: vs) ∧
      Covers (.params f.1) us ∧ Covers (.statement f.2) vs⟩ L := by
  refine Settles.bind (settles_expect .lparen {.punct .rparen}) ?_
  rintro _ opened rfl
  refine Settles.bind (settles_params fun n => Nat.le_refl n) fun us ps hps => ?_
  refine Settles.bind (settles_expectClosing .rparen .lparen opened {.punct .lbrace}).within ?_
  rintro _ closed rfl
  refine Settles.bind (settles_block h true X) fun vs body hbody => ?_
  exact settles_ok (ps, body) ⟨us, vs, opened, closed, by simp, hps, hbody⟩ Set.Subset.rfl

end

/-! ## Object literals -/

/-- What is skipped behind the tokens `past`, `depth` brackets being open. -/
abbrev Skips (past : List Token) (start : Span) (kind : String) (depth : Nat) (ts : List Token) (e : Node) : Prop :=
  Nests depth ts ∧ e = .unsupported (start.merge (endOf (past.reverse ++ ts))) kind

theorem Skips.cons {start : Span} {kind : String} {t : Token} {m n : Nat} {ts : List Token} {e : Node}
    (h : Skips (t :: past) start kind m ts e) (ht : Nests m ts → Nests n (t :: ts)) :
    Skips past start kind n (t :: ts) e :=
  ⟨ht h.1, by simpa using h.2⟩

/-- As many closing braces as there are open brackets. -/
theorem takes_skipObjectFrom (start : Span) {size k : Nat → Nat} (hk : ∀ n, size n - 1 ≤ k n) (depth : Nat) (next : Token) :
    Takes size past (fun n => skipObjectFrom start (k n) (depth + 1)) (List.replicate (depth + 1) ⟨.punct .rbrace, .none⟩)
      next (.ok (.unsupported (start.merge (endOf (past.reverse ++ List.replicate (depth + 1) ⟨.punct .rbrace, .none⟩)))
        "ObjectExpression")) := by
  induction depth generalizing size k past with
  | zero =>
    apply Takes.cons
    case hR =>
      intro n c c' hc hadvance hn
      rw [bound_eq (hk n) (Nat.sub_pos_of_lt hn), skipObjectFrom, Cursor.kind_of_current hc, hadvance]
    case h =>
      intro n rest hlen
      rw [endOf_append (by simp)]
      rfl
    case hk => simp
  | succ depth ih =>
    apply Takes.cons
    case hR =>
      intro n c c' hc hadvance hn
      rw [bound_eq (hk n) (Nat.sub_pos_of_lt hn), skipObjectFrom, Cursor.kind_of_current hc, hadvance]
    case h =>
      rw [show past.reverse ++ List.replicate (depth + 2) (⟨.punct .rbrace, .none⟩ : Token) =
        (⟨.punct .rbrace, .none⟩ :: past).reverse ++ List.replicate (depth + 1) ⟨.punct .rbrace, .none⟩ by
          simp [List.replicate_succ]]
      exact ih fun n => Nat.sub_le_sub_right (hk n) 1
    case hk => simp

theorem settles_skipObjectFrom (start : Span) (X : Set TokenKind) {size k : Nat → Nat} (hk : ∀ n, size n - 1 ≤ k n)
    (depth : Nat) : Settles size past (fun n => skipObjectFrom start (k n) (depth + 1))
      ⟨{.punct .rbrace}, X, Skips past start "ObjectExpression" (depth + 1)⟩ L := by
  induction L generalizing size k past depth with
  | zero => exact settles_zero
  | succ L ih =>
    have hless : ∀ n, size n - 1 - 1 ≤ k n - 1 := fun n => Nat.sub_le_sub_right (hk n) 1
    refine ⟨?_, fun _ => ?_⟩
    · rintro ⟨k', s⟩
      cases k' with
      | eof =>
        refine RunsAt.reject (e := ⟨.unclosedDelimiter .lbrace start, s, some .unsupportedSyntax⟩) ⟨rfl, rfl⟩ ?_
        intro n c hc _
        have hspan : c.span = s := by rw [Cursor.span, hc]
        cases k n with
        | zero =>
          rw [skipObjectFrom, unclosed, hspan]
          rfl
        | succ m =>
          rw [skipObjectFrom, Cursor.kind_of_current hc, unclosed, hspan]
          rfl
      | punct p =>
        have hstep : ∀ n c c', c.current = ⟨.punct p, s⟩ → c.advance = c' → 1 < size n →
            skipObjectFrom start (k n) (depth + 1) c =
              if p.isOpener then skipObjectFrom start (k n - 1) (depth + 2) c'
              else if p.isCloser then
                if depth + 1 ≤ 1 then skipped "ObjectExpression" start c' else skipObjectFrom start (k n - 1) depth c'
              else skipObjectFrom start (k n - 1) (depth + 1) c' := by
          rintro n c _ hc rfl hn
          rw [bound_eq (hk n) (Nat.sub_pos_of_lt hn), skipObjectFrom, Cursor.kind_of_current hc]
          rfl
        by_cases ho : p.isOpener = true
        · refine RunsAt.cons (E := {.punct .rbrace}) (by simp)
            (fun n c c' hc ha hn => (hstep n c c' hc ha hn).trans (if_pos ho)) ?_
          exact (ih hless (depth + 1)).weaken Set.Subset.rfl Set.Subset.rfl fun us e hus => hus.cons (.opener ho)
        by_cases hcl : p.isCloser = true
        · cases depth with
          | zero =>
            refine RunsAt.cons (E := X) (by simp) (fun n c c' hc ha hn =>
              (hstep n c c' hc ha hn).trans ((if_neg ho).trans ((if_pos hcl).trans (if_pos (Nat.le_refl 1))))) ?_
            refine settles_pure (fun last => Node.unsupported (start.merge last) "ObjectExpression") ?_ Set.Subset.rfl
            exact ⟨.closer hcl .nil, by simp⟩
          | succ depth =>
            refine RunsAt.cons (E := {.punct .rbrace}) (by simp) (fun n c c' hc ha hn =>
              (hstep n c c' hc ha hn).trans ((if_neg ho).trans ((if_pos hcl).trans (if_neg (by omega))))) ?_
            exact (ih hless depth).weaken Set.Subset.rfl Set.Subset.rfl fun us e hus => hus.cons (.closer hcl)
        · refine RunsAt.cons (E := {.punct .rbrace}) (by simp) (fun n c c' hc ha hn =>
            (hstep n c c' hc ha hn).trans ((if_neg ho).trans (if_neg hcl))) ?_
          refine (ih hless depth).weaken Set.Subset.rfl Set.Subset.rfl fun us e hus => hus.cons (.other ?_)
          simp [isLevel, ho, hcl]
      | number _ | string _ | ident _ | keyword _ =>
        apply RunsAt.cons (by simp)
        case hR =>
          intro n c c' hc hadvance hn
          rw [bound_eq (hk n) (Nat.sub_pos_of_lt hn), skipObjectFrom, Cursor.kind_of_current hc, hadvance]
        case h =>
          exact (ih hless depth).weaken Set.Subset.rfl Set.Subset.rfl fun us e hus => hus.cons (.other rfl)
    · exact ⟨_, _, ⟨nests_replicate rfl .none _, rfl⟩, fun u hu => ⟨rfl, takes_skipObjectFrom start hk depth u⟩⟩

/-! ## Primary expressions -/

/-- A construct that is only recognised, once its last token is consumed. -/
theorem settles_recognised {size : Nat → Nat} {t : Token} {ts : List Token} (hts : Nests 0 (t :: ts)) (kind : String)
    (X : Set TokenKind) :
    Settles size (ts.reverse ++ t :: past) (fun _ c => pure (Node.unsupported (c.spanFrom t.span) kind, c))
      ⟨X, X, fun us e => Covers (.expression e) (t :: (ts ++ us))⟩ L := by
  refine settles_pure (fun last => Node.unsupported (t.span.merge last) kind) ?_ Set.Subset.rfl
  have hseen : Covers (.expression (.unsupported (spanOf (t :: ts)) kind)) (t :: ts) := .recognised hts
  simpa [spanOf] using hseen

section
variable (h : Predicts L) (inBody : Bool) {t : Token}
include h

/-- The arguments of a call in their parentheses. -/
theorem runs_arguments (X : Set TokenKind) :
    RunsAt (fun n => n + 1) past (fun n => arguments (ofDepth n) inBody n)
      ⟨{.punct .lparen}, X, fun ts as => ∃ us s s', ts = ⟨.punct .lparen, s⟩ :: (us ++ [⟨.punct .rparen, s'⟩]) ∧
        Covers (.items as) us⟩ (L + 1) t := by
  refine RunsAt.bind_strict ((settles_expect .lparen {.punct .rparen}).runs t) (by simp [Contract.Strict]) ?_
  rintro _ opened rfl
  refine Settles.bind (settles_commaList .rparen (by simp [closers]) (h.expression inBody) fun n => Nat.le_refl n) ?_
  intro us as has
  refine Settles.bind (settles_expectClosing .rparen .lparen opened X) ?_
  rintro _ closed rfl
  exact settles_ok as ⟨us, opened, closed, by simp, has⟩ Set.Subset.rfl

theorem runs_parenthesized (ht : t.kind = .punct .lparen) :
    RunsAt (fun n => n + 1) past (fun n => parenthesized (ofDepth n) inBody) .expression (L + 1) t := by
  obtain ⟨_, s⟩ := t
  cases ht
  apply RunsAt.cons (by simp)
  case hR =>
    intro n c c' hc hadvance _
    rw [parenthesized, hadvance, Cursor.span, hc]
  case h =>
    refine Settles.bind ((h.expression inBody _).before (X := {.punct .rparen}) (by simp [closers])).within ?_
    intro us e he
    refine Settles.bind (settles_expectClosing .rparen .lparen s closers).within ?_
    rintro _ s' rfl
    exact settles_ok e (by simpa using Covers.parenthesized he) Set.Subset.rfl

theorem runs_arrayLiteral (ht : t.kind = .punct .lbracket) :
    RunsAt (fun n => n + 1) past (fun n => arrayLiteral (ofDepth n) inBody n) .expression (L + 1) t := by
  obtain ⟨_, s⟩ := t
  cases ht
  apply RunsAt.cons (by simp)
  case hR =>
    intro n c c' hc hadvance _
    rw [arrayLiteral, hadvance, Cursor.span, hc]
  case h =>
    refine Settles.bind (settles_commaList .rbracket (by simp [closers]) (h.expression inBody)
      fun n => Nat.le_refl n).within ?_
    intro us es hes
    refine Settles.bind (settles_expectClosing .rbracket .lbracket s closers).within ?_
    rintro _ s' rfl
    refine settles_pure (fun last => Node.array (s.merge last) es) ?_ Set.Subset.rfl
    simpa using Covers.array hes

omit h in
theorem runs_skipObject (ht : t.kind = .punct .lbrace) :
    RunsAt (fun n => n + 1) past skipObject .expression (L + 1) t := by
  obtain ⟨_, s⟩ := t
  cases ht
  have hrest : Settles (fun n => n) (⟨.punct .lbrace, s⟩ :: past) (fun n => skipObjectFrom s (n - 1) 1)
      ⟨{.punct .rbrace}, closers, fun us e => Covers (.expression e) (⟨.punct .lbrace, s⟩ :: us)⟩ L := by
    refine (settles_skipObjectFrom s closers (fun n => Nat.le_refl (n - 1)) 0).weaken Set.Subset.rfl Set.Subset.rfl ?_
    rintro us e ⟨hus, rfl⟩
    have hseen : Covers (.expression (.unsupported (spanOf (⟨.punct .lbrace, s⟩ :: us)) "ObjectExpression"))
        (⟨.punct .lbrace, s⟩ :: us) := .recognised (.opener rfl hus)
    simpa [spanOf] using hseen
  refine RunsAt.cons (by simp) ?_ hrest
  intro n c c' hc hadvance hn
  show skipObjectFrom c.span n 0 c = skipObjectFrom s (n - 1) 1 c'
  rw [Cursor.span, hc]
  nth_rewrite 1 [bound_eq (Nat.le_refl n) (Nat.lt_of_succ_lt_succ hn)]
  rw [skipObjectFrom, Cursor.kind_of_current hc, hadvance]
  rfl

/-- The rest of a function expression, behind its name if it has one. -/
theorem settles_functionRest {ts : List Token} (hts : Nests 0 (t :: ts)) :
    Settles (fun n => n) (ts.reverse ++ t :: past) (fun n c => do
        let (_, c) ← paramsAndBody (ofDepth n) n c
        return (.unsupported (c.spanFrom t.span) "FunctionExpression", c))
      ⟨{.punct .lparen}, closers, fun us e => Covers (.expression e) (t :: (ts ++ us))⟩ L := by
  refine Settles.bind (settles_paramsAndBody h closers) ?_
  rintro _ ⟨ps, body⟩ ⟨us, vs, s₁, s₂, rfl, hps, hbody⟩
  have hrest : Nests 0 (⟨.punct .lparen, s₁⟩ :: (us ++ ⟨.punct .rparen, s₂⟩ :: vs)) := by
    simpa using (hps.nests.bracketed (p := .lparen) (q := .rparen) rfl rfl).append hbody.nests
  simpa using settles_recognised (hts.append hrest) "FunctionExpression" closers

theorem runs_functionExpression (ht : t.kind = .keyword .functionKw) :
    RunsAt (fun n => n + 1) past (fun n => functionExpression (ofDepth n) n) .expression (L + 1) t := by
  have hword : Nests 0 [t] := nests_token (by simp [isLevel, ht])
  apply RunsAt.cons (by simp [ht])
  case hR =>
    intro n c c' hc hadvance hn
    rw [functionExpression, hadvance, Cursor.span, hc]
  case h =>
    refine Settles.branch identifiers ?_ (settles_functionRest h hword) ?_ ?_ ?_
    · rintro u ⟨name, hu⟩
      refine RunsAt.shorten ?_ (Nat.le_succ L)
      apply RunsAt.cons (by simp [hu])
      case hR =>
        intro n c c' hc hadvance hn
        have hname : c.check .ident = true := Cursor.check_ident.mpr ⟨name, by rw [Cursor.kind_of_current hc, hu]⟩
        simp only [hname, if_true, hadvance]
        rfl
      case h =>
        exact (settles_functionRest h (hword.append (nests_token (by simp [isLevel, hu])))).resize fun n => Nat.sub_le n 1
    · simp [identifiers]
    · rw [Set.disjoint_left]
      rintro _ ⟨name, rfl⟩
      simp [closers]
    · intro n c hc hn
      have hname : ¬ c.check .ident = true := mt Cursor.check_ident.mp hc
      simp only [hname, Bool.false_eq_true, if_false]

theorem runs_newExpression (ht : t.kind = .keyword .newKw) :
    RunsAt (fun n => n + 1) past (fun n => newExpression (ofDepth n) inBody n) .expression (L + 1) t := by
  have hword : Nests 0 [t] := nests_token (by simp [isLevel, ht])
  apply RunsAt.cons (by simp [ht])
  case hR =>
    intro n c c' hc hadvance hn
    rw [newExpression, hadvance, Cursor.span, hc]
  case h =>
    refine Settles.bind (h.primary inBody _) fun us e he => ?_
    refine Settles.bind (settles_dottedNames fun n => Nat.le_refl n) fun vs _ hvs => ?_
    have hseen : Nests 0 (t :: (us ++ vs)) := hword.append (he.nests.append hvs)
    refine Settles.branch {.punct .lparen} ?_ (by simpa using settles_recognised hseen "NewExpression" closers) ?_ ?_ ?_
    · intro u hu
      apply RunsAt.becomes (· = u) rfl
      case hR =>
        intro n c hc hn
        have hparen : c.check (.punct .lparen) = true := Cursor.check_of_kind ((Cursor.kind_of_current hc).trans hu)
        simp only [hparen, if_true]
        rfl
      case h =>
        refine RunsAt.bind (((runs_arguments h inBody closers).shorten (Nat.le_succ L)).resize fun n => Nat.le_succ n) ?_
        rintro _ as ⟨ws, s₁, s₂, rfl, has⟩
        have hargs : Nests 0 (⟨.punct .lparen, s₁⟩ :: (ws ++ [⟨.punct .rparen, s₂⟩])) := has.nests.bracketed rfl rfl
        simpa using settles_recognised (hseen.append hargs) "NewExpression" closers
      case hX => simp [closers]
    · simp [closers]
    · simp [closers]
    · intro n c hc hn
      have hparen : ¬ c.check (.punct .lparen) = true := mt Cursor.kind_of_check hc
      simp only [hparen, Bool.false_eq_true, if_false]
      rfl

omit h in
theorem runs_unexpected (hR : ∀ n c, c.kind = t.kind → primaryAt (ofDepth n) inBody n c = fail (.expectedExpression t.tag) c.span) :
    RunsAt (fun n => n + 1) past (fun n => primaryAt (ofDepth n) inBody n) .expression (L + 1) t := by
  refine RunsAt.reject (e := ⟨.expectedExpression t.tag, t.span, none⟩) ⟨rfl, rfl⟩ ?_
  intro n c hc _
  rw [hR n c (Cursor.kind_of_current hc), Cursor.span, hc]
  rfl

theorem settles_primaryAt :
    Settles (fun n => n + 1) past (fun n => primaryAt (ofDepth n) inBody n) .expression (L + 1) := by
  have hident (n : Nat) (c : Cursor) (s : Span) (name : String) (hc : c.current = ⟨.ident name, s⟩) :
      primaryAt (ofDepth n) inBody n c = .ok (.ident s name, c.advance) := by
    rw [primaryAt, Cursor.kind_of_current hc, Cursor.span, hc]
  refine ⟨?_, fun _ => finishes_token (.ident "x") (.ident .none "x") (by simp) rfl .ident fun n c => hident n c _ _⟩
  rintro ⟨k, s⟩
  have becomes {R : Bounded Node} (hrun : RunsAt (fun n => n + 1) past R .expression (L + 1) ⟨k, s⟩)
      (hR : ∀ n c, c.kind = k → primaryAt (ofDepth n) inBody n c = R n c) :
      RunsAt (fun n => n + 1) past (fun n => primaryAt (ofDepth n) inBody n) .expression (L + 1) ⟨k, s⟩ :=
    hrun.congr (· = ⟨k, s⟩) rfl (.inl expression_strict) fun n c hc _ => hR n c (Cursor.kind_of_current hc)
  cases k with
  | number x =>
    exact RunsAt.token (.number s x) (by simp) .number fun n c hc => by
      rw [primaryAt, Cursor.kind_of_current hc, Cursor.span, hc]
  | string v =>
    exact RunsAt.token (.string s v) (by simp) .string fun n c hc => by
      rw [primaryAt, Cursor.kind_of_current hc, Cursor.span, hc]
  | ident name => exact RunsAt.token (.ident s name) (by simp) .ident fun n c => hident n c s name
  | keyword k =>
    cases k with
    | trueKw =>
      exact RunsAt.token (.bool s true) (by simp) .bool fun n c hc => by
        rw [primaryAt, Cursor.kind_of_current hc, Cursor.span, hc]
    | falseKw =>
      exact RunsAt.token (.bool s false) (by simp) .bool fun n c hc => by
        rw [primaryAt, Cursor.kind_of_current hc, Cursor.span, hc]
    | nullKw =>
      exact RunsAt.token (.null s) (by simp) .null fun n c hc => by
        rw [primaryAt, Cursor.kind_of_current hc, Cursor.span, hc]
    | thisKw =>
      exact RunsAt.token (.this s) (by simp) .this fun n c hc => by
        rw [primaryAt, Cursor.kind_of_current hc, Cursor.span, hc]
    | functionKw => exact becomes (runs_functionExpression h rfl) fun n c hc => by rw [primaryAt, hc]
    | newKw => exact becomes (runs_newExpression h inBody rfl) fun n c hc => by rw [primaryAt, hc]
    | _ => exact runs_unexpected inBody fun n c hc => by rw [primaryAt, hc]; rfl
  | punct p =>
    cases p with
    | lparen => exact becomes (runs_parenthesized h inBody rfl) fun n c hc => by rw [primaryAt, hc]
    | lbracket => exact becomes (runs_arrayLiteral h inBody rfl) fun n c hc => by rw [primaryAt, hc]
    | lbrace => exact becomes (runs_skipObject rfl) fun n c hc => by rw [primaryAt, hc]
    | _ => exact runs_unexpected inBody fun n c hc => by rw [primaryAt, hc]; rfl
  | eof => exact runs_unexpected inBody fun n c hc => by rw [primaryAt, hc]; rfl

/-! ## Member access and calls -/

omit h in
theorem runs_dotMember {o : Node} {ts : List Token} (ho : Covers (.expression o) ts) (ht : t.kind = .punct .dot)
    {size : Nat → Nat} : RunsAt size past (fun _ => dotMember o)
      ⟨∅, closers, fun us e => Covers (.expression e) (ts ++ us)⟩ (L + 1) t := by
  obtain ⟨_, s⟩ := t
  cases ht
  apply RunsAt.cons (by simp)
  case hR =>
    intro n c c' hc hadvance _
    rw [dotMember, hadvance]
  case h =>
    refine Settles.bind (settles_propertyName closers).within ?_
    rintro _ _ ⟨k, s', name, rfl, rfl, hname⟩
    exact settles_ok (Node.member (o.span.merge s') o (.ident s' name) false) (Covers.dotted ho hname) Set.Subset.rfl

theorem runs_computedMember {o : Node} {ts : List Token} (ho : Covers (.expression o) ts) (ht : t.kind = .punct .lbracket) :
    RunsAt (fun n => n + 1) past (fun n => computedMember (ofDepth n) inBody o)
      ⟨∅, closers, fun us e => Covers (.expression e) (ts ++ us)⟩ (L + 1) t := by
  obtain ⟨_, s⟩ := t
  cases ht
  apply RunsAt.cons (by simp)
  case hR =>
    intro n c c' hc hadvance _
    rw [computedMember, hadvance, Cursor.span, hc]
  case h =>
    refine Settles.bind ((h.expression inBody _).before (X := {.punct .rbracket}) (by simp [closers])).within ?_
    intro us p hp
    refine Settles.bind (settles_expectClosing .rbracket .lbracket s closers).within ?_
    rintro _ s' rfl
    refine settles_pure (fun last => Node.member (o.span.merge last) o p true) ?_ Set.Subset.rfl
    simpa using Covers.computed ho hp

theorem runs_callOf {f : Node} {ts : List Token} (hf : Covers (.expression f) ts) :
    RunsAt (fun n => n + 1) past (fun n => callOf (ofDepth n) inBody n f)
      ⟨{.punct .lparen}, closers, fun us e => Covers (.expression e) (ts ++ us)⟩ (L + 1) t := by
  refine RunsAt.bind (runs_arguments h inBody closers).within ?_
  rintro _ as ⟨us, s, s', rfl, has⟩
  refine settles_pure (fun last => Node.call (f.span.merge last) f as) ?_ Set.Subset.rfl
  simpa using Covers.call hf has

/-- Member accesses and calls behind an expression. -/
theorem settles_suffixes {M : Nat} (hM : M ≤ L + 1) {size k : Nat → Nat} (hk : ∀ n, size n ≤ k n)
    (hsize : ∀ n, size n ≤ n + 1) {e : Node} {ts : List Token} (he : Covers (.expression e) ts) :
    Settles size past (fun n => suffixes (ofDepth n) inBody n (k n) e) (.suffix ts) M := by
  induction M generalizing size k e ts past with
  | zero => exact settles_zero
  | succ M ih =>
    have hclosers {E : Set TokenKind} (hE : .eof ∉ E) : ¬ closers ⊆ E := fun hsub => hE (hsub (by simp [closers]))
    have hstep {t : Token} {R : Bounded Node} {E : Set TokenKind} (hE : .eof ∉ E)
        (hrun : RunsAt (fun n => n + 1) past R ⟨E, closers, fun us e => Covers (.expression e) (ts ++ us)⟩ (L + 1) t)
        (hR : ∀ n k c, c.kind = t.kind →
          suffixes (ofDepth n) inBody n (k + 1) e c = R n c >>= fun (e, c) => suffixes (ofDepth n) inBody n k e c) :
        RunsAt size past (fun n => suffixes (ofDepth n) inBody n (k n) e) (.suffix ts) (M + 1) t := by
      apply RunsAt.becomes (· = t) rfl
      case hR =>
        intro n c hc hn
        rw [bound_eq (hk n) hn, hR n _ c (Cursor.kind_of_current hc)]
      case h =>
        refine RunsAt.bind_strict ((hrun.shorten hM).resize hsize) (hclosers hE) fun us e he => ?_
        simpa [Contract.suffix] using ih (Nat.le_of_succ_le hM) (fun n => Nat.sub_le_sub_right (hk n) 1)
          (fun n => (Nat.sub_le _ 1).trans (hsize n)) he
      case hX => exact hclosers hE
    refine Settles.branch {.punct .dot, .punct .lbracket, .punct .lparen} ?_
      (settles_ok e (by simpa using he) Set.Subset.rfl) (by simp [closers]) (by simp [closers]) ?_
    · rintro t (ht | ht | ht)
      · exact hstep (by simp) (runs_dotMember he ht) fun n k c hc => by rw [suffixes, hc, ht]
      · exact hstep (by simp) (runs_computedMember h inBody he ht) fun n k c hc => by rw [suffixes, hc, ht]
      · exact hstep (by simp) (runs_callOf h inBody he) fun n k c hc => by
          rw [suffixes, hc, ht]
    · intro n c hc hn
      rw [bound_eq (hk n) hn, suffixes]
      split
      · exact absurd (.inl ‹_›) hc
      · exact absurd (.inr (.inl ‹_›)) hc
      · exact absurd (.inr (.inr ‹_›)) hc
      · rfl

theorem settles_postfixAt :
    Settles (fun n => n + 1) past (fun n => postfixAt (ofDepth n) inBody n) .expression (L + 1) := by
  refine Settles.bind_strict (settles_primaryAt h inBody) expression_strict fun ts e he => ?_
  exact settles_suffixes h inBody (Nat.le_refl _) (fun n => Nat.le_refl n) (fun n => Nat.le_succ n) he

/-! ## Operators -/

theorem settles_unaryAt :
    Settles (fun n => n + 1) past (fun n => unaryAt (ofDepth n) inBody n) .expression (L + 1) := by
  refine Settles.branch {k | isSign k.tag = true} ?_ (settles_postfixAt h inBody) ?_ ?_ ?_
  · intro t (ht : isSign t.tag = true)
    apply RunsAt.cons
    case hR =>
      intro n c c' hc hadvance _
      have hsign : isSign c.tag = true := by rwa [Cursor.tag, hc]
      rw [unaryAt, if_pos hsign, hadvance, Cursor.span, hc]
    case h =>
      refine Settles.bind (h.unary inBody _) fun us e he => ?_
      exact settles_ok (Node.unsupported (t.span.merge e.span) "UnaryExpression") (by simpa using Covers.signed ht he)
        Set.Subset.rfl
    case hk =>
      intro heof
      rw [Token.tag, heof] at ht
      cases ht
  · simp [fresh, isSign, TokenKind.tag]
  · simp [closers, isSign, TokenKind.tag]
  · intro n c hc hn
    exact if_neg hc

theorem settles_exponentAt :
    Settles (fun n => n + 1) past (fun n => exponentAt (ofDepth n) inBody n) .expression (L + 1) := by
  refine Settles.bind (settles_unaryAt h inBody) fun ts base hbase => ?_
  apply settles_eats .starStar fun _ => base
  case hnone =>
    intro n c hc _
    simp only [hc]
    rfl
  case hsome =>
    intro n c c' hc _
    simp only [hc]
    rfl
  case h =>
    intro s
    refine Settles.bind (h.exponent inBody _) fun us power hpower => ?_
    refine settles_ok (joined .exp base power) ?_ Set.Subset.rfl
    rw [List.append_nil]
    exact .binary hbase hpower
  case hX => simp [closers]
  case hresult => simpa using hbase

/-- A token that joins two expressions ends neither, and stands between them. -/
def Joins.Covering (joins : Joins) : Prop :=
  ∀ {tag join}, joins tag = some join → ∃ p, tag = .punct p ∧ .punct p ∉ closers ∧ ∀ {l r ts us s},
    Covers (.expression l) ts → Covers (.expression r) us →
      Covers (.expression (join l r)) (ts ++ ⟨.punct p, s⟩ :: us)

omit h in
theorem settles_chainFrom {joins : Joins} (hj : joins.Covering) {size k : Nat → Nat} {operand : Bounded Node} {M : Nat}
    (ho : ∀ past, Settles size past operand .expression M) (hk : ∀ n, size n ≤ k n) {left : Node} {ts : List Token}
    (hl : Covers (.expression left) ts) :
    Settles size past (fun n => chainFrom joins (operand n) (k n) left) (.suffix ts) M := by
  induction M generalizing size k left ts past with
  | zero => exact settles_zero
  | succ M ih =>
    have hdisjoint : Disjoint {k : TokenKind | ∃ join, joins k.tag = some join} closers := by
      rw [Set.disjoint_left]
      rintro k ⟨join, hjoin⟩ hk
      obtain ⟨p, htag, hp, -⟩ := hj hjoin
      exact hp (TokenKind.eq_punct_of_tag htag ▸ hk)
    refine Settles.branch {k | ∃ join, joins k.tag = some join} ?_ (settles_ok left (by simpa using hl) Set.Subset.rfl)
      hdisjoint hdisjoint ?_
    · rintro ⟨k', s⟩ ⟨join, hjoin⟩
      obtain ⟨p, htag, -, hbetween⟩ := hj hjoin
      obtain rfl : k' = .punct p := TokenKind.eq_punct_of_tag htag
      apply RunsAt.cons (by simp)
      case hR =>
        intro n c c' hc hadvance hn
        have hjoin' : joins c.tag = some join := by rwa [Cursor.tag, hc]
        rw [bound_eq (hk n) (Nat.lt_of_succ_lt hn), chainFrom, hjoin', hadvance]
      case h =>
        refine Settles.bind (ho _).less fun us right hr => ?_
        simpa [Contract.suffix] using ih (fun past => (ho past).less) (fun n => Nat.sub_le_sub_right (hk n) 1) (hbetween hl hr)
    · intro n c hc hn
      have hnone : joins c.tag = none := by
        cases hjoin : joins c.tag with
        | none => rfl
        | some join => exact absurd ⟨join, hjoin⟩ hc
      rw [bound_eq (hk n) hn, chainFrom, hnone]

omit h in
theorem settles_chain {joins : Joins} (hj : joins.Covering) {operand : Bounded Node}
    (ho : ∀ past, Settles (fun n => n + 1) past operand .expression (L + 1)) :
    Settles (fun n => n + 1) past (fun n => chain joins (operand n) n) .expression (L + 1) := by
  refine Settles.bind_strict (ho past) expression_strict fun ts left hl => ?_
  exact settles_chainFrom hj (fun past => (ho past).resize fun n => Nat.le_succ n) (fun n => Nat.le_refl n) hl

omit h in
theorem joined_covering {p : Punct} {op : BinaryOp} (hp : op.punct = p) (hclose : .punct p ∉ closers) :
    ∃ q, Tag.punct p = .punct q ∧ .punct q ∉ closers ∧ ∀ {l r ts us s},
      Covers (.expression l) ts → Covers (.expression r) us →
        Covers (.expression (joined op l r)) (ts ++ ⟨.punct q, s⟩ :: us) :=
  ⟨p, rfl, hclose, fun hl hr => hp ▸ .binary hl hr⟩

omit h in
theorem productJoins_covering : Joins.Covering productJoins := by
  intro tag join hjoin
  unfold productJoins at hjoin
  split at hjoin <;> cases hjoin <;> exact joined_covering rfl (by simp [closers])

omit h in
theorem sumJoins_covering : Joins.Covering sumJoins := by
  intro tag join hjoin
  unfold sumJoins at hjoin
  split at hjoin <;> cases hjoin <;> exact joined_covering rfl (by simp [closers])

omit h in
theorem relationJoins_covering : Joins.Covering relationJoins := by
  intro tag join hjoin
  unfold relationJoins at hjoin
  split at hjoin <;> cases hjoin <;> exact joined_covering rfl (by simp [closers])

omit h in
theorem equalityJoins_covering : Joins.Covering equalityJoins := by
  intro tag join hjoin
  unfold equalityJoins at hjoin
  split at hjoin <;> cases hjoin <;> exact joined_covering rfl (by simp [closers])

omit h in
theorem andJoins_covering : Joins.Covering andJoins := by
  intro tag join hjoin
  unfold andJoins at hjoin
  split at hjoin <;> cases hjoin
  exact ⟨_, rfl, by simp [closers], fun hl hr => .joined (by simp [joinedKinds]) hl (nests_token rfl) hr⟩

omit h in
theorem orJoins_covering : Joins.Covering orJoins := by
  intro tag join hjoin
  unfold orJoins at hjoin
  split at hjoin <;> cases hjoin
  exact ⟨_, rfl, by simp [closers], fun hl hr => .joined (by simp [joinedKinds]) hl (nests_token rfl) hr⟩

theorem settles_productAt : Settles (fun n => n + 1) past (fun n => productAt (ofDepth n) inBody n) .expression (L + 1) :=
  settles_chain productJoins_covering fun _ => settles_exponentAt h inBody

theorem settles_sumAt : Settles (fun n => n + 1) past (fun n => sumAt (ofDepth n) inBody n) .expression (L + 1) :=
  settles_chain sumJoins_covering fun _ => settles_productAt h inBody

theorem settles_relationAt : Settles (fun n => n + 1) past (fun n => relationAt (ofDepth n) inBody n) .expression (L + 1) :=
  settles_chain relationJoins_covering fun _ => settles_sumAt h inBody

theorem settles_equalityAt : Settles (fun n => n + 1) past (fun n => equalityAt (ofDepth n) inBody n) .expression (L + 1) :=
  settles_chain equalityJoins_covering fun _ => settles_relationAt h inBody

theorem settles_andAt : Settles (fun n => n + 1) past (fun n => andAt (ofDepth n) inBody n) .expression (L + 1) :=
  settles_chain andJoins_covering fun _ => settles_equalityAt h inBody

theorem settles_orAt : Settles (fun n => n + 1) past (fun n => orAt (ofDepth n) inBody n) .expression (L + 1) :=
  settles_chain orJoins_covering fun _ => settles_andAt h inBody

theorem settles_conditionalAt :
    Settles (fun n => n + 1) past (fun n => conditionalAt (ofDepth n) inBody n) .expression (L + 1) := by
  refine Settles.bind (settles_orAt h inBody) fun ts test htest => ?_
  apply settles_eats .question fun _ => test
  case hnone =>
    intro n c hc _
    simp only [hc]
    rfl
  case hsome =>
    intro n c c' hc _
    simp only [hc]
    rfl
  case h =>
    intro s
    have hmiddle := (h.expression inBody (⟨.punct .question, s⟩ :: (ts.reverse ++ past))).before
      (X := {.punct .colon}) (by simp [closers])
    refine Settles.bind hmiddle fun us e he => ?_
    refine Settles.bind (settles_expect .colon fresh) ?_
    rintro _ s' rfl
    refine Settles.bind (h.expression inBody _) fun vs alternate halternate => ?_
    refine settles_ok (Node.unsupported (test.span.merge alternate.span) "ConditionalExpression") ?_ Set.Subset.rfl
    have hbetween : Nests 0 (⟨.punct .question, s⟩ :: (us ++ [⟨.punct .colon, s'⟩])) :=
      (nests_token rfl).append (he.nests.append (nests_token rfl))
    simpa using Covers.joined (by simp [joinedKinds]) htest hbetween halternate
  case hX => simp [closers]
  case hresult => simpa using htest

theorem settles_expressionAt :
    Settles (fun n => n + 1) past (fun n => expressionAt (ofDepth n) inBody n) .expression (L + 1) := by
  refine Settles.bind (settles_conditionalAt h inBody) fun ts left hl => ?_
  apply settles_eats .eq fun _ => left
  case hnone =>
    intro n c hc _
    simp only [hc]
    rfl
  case hsome =>
    intro n c c' hc _
    simp only [hc]
    rfl
  case h =>
    intro s
    refine Settles.bind (h.expression inBody _) fun us right hr => ?_
    refine settles_ok (joinedUnsupported "AssignmentExpression" left right) ?_ Set.Subset.rfl
    rw [List.append_nil]
    exact .joined (by simp [joinedKinds]) hl (nests_token rfl) hr
  case hX => simp [closers]
  case hresult => simpa using hl

end

end

end Treewalk.Grammar
