/-
  Treewalk.Proofs.Prediction.Statements — how the parsers of statements run.

  A statement ends in front of the brace that closes its block and in front of the end of input,
  whatever it is; a completion of it needs nothing behind its own last token. A statement that is
  skipped is completed by closing the brackets that are open in it.

  Proved: parsers of every depth settle all lists that end in their only `eof` (`predicts`), and so
  does the loop over the statements of a program (`settles_programStatements`).
-/

import Treewalk.Proofs.Prediction.Expressions

namespace Treewalk.Grammar

section
variable {L : Nat} {past : List Token}

theorem ends_subset_closers : ends ⊆ closers := by
  rintro k (rfl | rfl)
  · simp [closers]
  · simp [closers]

/-! ## Skipped statements -/

/-- The tokens that go on with a statement that could end before them. -/
def continuation (kind : String) : Set TokenKind := {k | continues kind ⟨[], [⟨k, .none⟩], 0⟩ = true}

theorem continues_iff {kind : String} {c : Cursor} : continues kind c = true ↔ c.kind ∈ continuation kind := Iff.rfl

theorem keyword_of_continuation {kind : String} {k : TokenKind} (h : k ∈ continuation kind) : ∃ w, k = .keyword w := by
  cases k with
  | keyword w => exact ⟨w, rfl⟩
  | _ => cases h

section
variable (kind : String) (start : Span) {size k : Nat → Nat}

abbrev Contract.skipped (past : List Token) (depth : Nat) : Contract Node :=
  ⟨{.punct .rparen} ∪ ends, ends, Skips past start kind depth⟩

/-- Where a statement ends outside all brackets, whatever it is. -/
def halts : Set TokenKind := {k | k = .eof ∨ ∃ p, k = .punct p ∧ p.isCloser = true}

theorem takes_skipFrom_nil {t : Token} (ht : t.kind ∈ halts) :
    Takes size past (fun n => skipFrom kind start (k n) []) [] t
      (.ok (.unsupported (start.merge (endOf past.reverse)) kind)) := by
  intro n rest hlen
  have hstop : skipFrom kind start (k n) [] (.facing past (t :: rest)) = skipped kind start (.facing past (t :: rest)) := by
    cases hkn : k n with
    | zero => rfl
    | succ m =>
      rw [skipFrom, Cursor.kind_facing]
      rcases ht with ht | ⟨p, ht, hp⟩
      · rw [ht]
        rfl
      · rw [ht]
        cases p <;> first | rfl | cases hp
  show skipFrom kind start (k n) [] (.facing past (t :: rest)) = _
  rw [hstop, skipped, Cursor.spanFrom, previousSpan_facing]
  rfl

theorem skipFrom_punct (hk : ∀ n, size n - 1 ≤ k n) {p : Punct} {s : Span} {opened : List (Punct × Span)} {n : Nat}
    {c c' : Cursor} (hc : c.current = ⟨.punct p, s⟩) (hadvance : c.advance = c') (hn : 1 < size n) :
    skipFrom kind start (k n) opened c =
      if p.isOpener then skipFrom kind start (k n - 1) ((p, s) :: opened) c'
      else if p.isCloser then
        match opened with
        | [] => skipped kind start c
        | _ :: opened =>
          if opened.isEmpty && p == .rbrace && !continues kind c' then skipped kind start (c'.skip .semicolon)
          else skipFrom kind start (k n - 1) opened c'
      else if p == .semicolon && opened.isEmpty && !continues kind c' then skipped kind start c'
      else skipFrom kind start (k n - 1) opened c' := by
  rw [bound_eq (hk n) (Nat.sub_pos_of_lt hn), skipFrom, Cursor.kind_of_current hc, hadvance, Cursor.span, hc]
  rfl

theorem takes_skipFrom (hk : ∀ n, size n - 1 ≤ k n) (opened : List (Punct × Span)) {t : Token} (ht : t.kind ∈ halts) :
    Takes size past (fun n => skipFrom kind start (k n) opened) (List.replicate opened.length ⟨.punct .rparen, .none⟩) t
      (.ok (.unsupported (start.merge (endOf (past.reverse ++ List.replicate opened.length ⟨.punct .rparen, .none⟩))) kind)) := by
  induction opened generalizing size k past with
  | nil => simpa using takes_skipFrom_nil kind start ht
  | cons o opened ih =>
    rw [List.length_cons, show past.reverse ++ List.replicate (opened.length + 1) (⟨.punct .rparen, .none⟩ : Token) =
      (⟨.punct .rparen, .none⟩ :: past).reverse ++ List.replicate opened.length ⟨.punct .rparen, .none⟩ by
        simp [List.replicate_succ]]
    refine Takes.cons ?_ (by simp) (ih fun n => Nat.sub_le_sub_right (hk n) 1)
    intro n c c' hc hadvance hn
    rw [skipFrom_punct kind start hk hc hadvance hn]
    simp [Punct.isOpener, Punct.isCloser]

/-- A word inside is skipped. -/
theorem runs_skipFrom_word (hk : ∀ n, size n - 1 ≤ k n) {t : Token} (ht : ∃ w, t.kind = .keyword w) {E : Set TokenKind}
    {opened : List (Punct × Span)}
    (hrest : Settles (fun n => size n - 1) (t :: past) (fun n => skipFrom kind start (k n - 1) opened)
      (.skipped kind start (t :: past) opened.length) L) :
    RunsAt size past (fun n => skipFrom kind start (k n) opened) ⟨E, ends, Skips past start kind opened.length⟩ (L + 1) t := by
  obtain ⟨w, hw⟩ := ht
  apply RunsAt.cons (by simp [hw])
  case hR =>
    intro n c c' hc hadvance hn
    rw [bound_eq (hk n) (Nat.sub_pos_of_lt hn), skipFrom, Cursor.kind_of_current hc, hw, hadvance]
  case h =>
    refine hrest.weaken Set.Subset.rfl Set.Subset.rfl fun us e hus => hus.cons (.other (by simp [isLevel, hw]))

/-- Where a statement could end, the next token decides whether it does. -/
theorem settles_ending (hk : ∀ n, size n - 1 ≤ k n) {S : Bounded Node}
    (hS : Settles size past S ⟨ends, ends, Skips past start kind 0⟩ L)
    (hrest : ∀ t, Settles (fun n => size n - 1) (t :: past) (fun n => skipFrom kind start (k n - 1) [])
      (.skipped kind start (t :: past) 0) (L - 1)) :
    Settles size past (fun n c => if !continues kind c then S n c else skipFrom kind start (k n) [] c)
      ⟨ends, ends, Skips past start kind 0⟩ L := by
  have hdisjoint : Disjoint (continuation kind) ends := by
    rw [Set.disjoint_left]
    rintro k hk (rfl | rfl) <;> cases hk
  refine Settles.branch (continuation kind) ?_ hS hdisjoint hdisjoint ?_
  · intro t ht
    cases L with
    | zero => exact settles_zero.runs t
    | succ L =>
      have hrun := runs_skipFrom_word kind start (E := ∅) hk (keyword_of_continuation ht) (hrest t)
      refine RunsAt.becomes (·.kind ∈ continuation kind) ht hrun (fun hsub => hsub (.inl rfl)) ?_
      intro n c hc hn
      have hcontinues : continues kind c = true := continues_iff.mpr hc
      simp [hcontinues]
  · intro n c hc hn
    have hcontinues : ¬ continues kind c = true := mt continues_iff.mp hc
    simp [hcontinues]

/-- Skipping from inside any brackets settles up to `L` tokens. -/
def Skipping (L : Nat) : Prop :=
  ∀ {past : List Token} {size k : Nat → Nat}, (∀ n, size n - 1 ≤ k n) → ∀ opened,
    Settles size past (fun n => skipFrom kind start (k n) opened) (.skipped kind start past opened.length) L

variable {kind start}

theorem halts_of_ends {k : TokenKind} (h : k ∈ ends) : k ∈ halts := by
  rcases h with rfl | rfl
  · exact .inr ⟨_, rfl, rfl⟩
  · exact .inl rfl

/-- In front of a token where the statement ends outside all brackets, nothing is consumed. -/
theorem runs_skipFrom_halt {t : Token} (ht : t.kind ∈ halts) :
    RunsAt size past (fun n => skipFrom kind start (k n) []) (.skipped kind start past 0) (L + 1) t := by
  refine RunsAt.stop ⟨.nil, by simp⟩ Set.subset_union_right fun u hu => takes_skipFrom_nil kind start ?_
  exact hu.elim (fun hu => hu ▸ ht) halts_of_ends

theorem runs_skipFrom_eof (opened : List (Punct × Span)) (s : Span) :
    RunsAt size past (fun n => skipFrom kind start (k n) opened) (.skipped kind start past opened.length) (L + 1)
      ⟨.eof, s⟩ := by
  cases opened with
  | nil => exact runs_skipFrom_halt (.inl rfl)
  | cons o opened =>
    obtain ⟨q, place⟩ := o
    refine RunsAt.reject (e := ⟨.unclosedDelimiter q place, s, some .unsupportedSyntax⟩) ⟨rfl, rfl⟩ ?_
    intro n c hc _
    have hspan : c.span = s := by rw [Cursor.span, hc]
    cases k n with
    | zero =>
      rw [skipFrom, skippedAtEnd, unclosed, hspan]
      rfl
    | succ m =>
      rw [skipFrom, Cursor.kind_of_current hc, skippedAtEnd, unclosed, hspan]
      rfl

section
variable (hk : ∀ n, size n - 1 ≤ k n) (ih : Skipping kind start L) {p : Punct} {s : Span}
include hk ih

theorem runs_skipFrom_opener (ho : p.isOpener = true) (opened : List (Punct × Span)) :
    RunsAt size past (fun n => skipFrom kind start (k n) opened) (.skipped kind start past opened.length) (L + 1)
      ⟨.punct p, s⟩ := by
  apply RunsAt.cons (by simp)
  case hR =>
    intro n c c' hc hadvance hn
    rw [skipFrom_punct kind start hk hc hadvance hn, if_pos ho]
  case h =>
    exact (ih (fun n => Nat.sub_le_sub_right (hk n) 1) ((p, s) :: opened)).weaken Set.Subset.rfl Set.Subset.rfl
      fun us e hus => hus.cons (.opener ho)

/-- Behind a token that could end the statement. -/
theorem settles_skipFrom_ending {S : Bounded Node} {t : Token} {m : Nat}
    (hS : Settles (fun n => size n - 1) (t :: past) S ⟨ends, ends, Skips (t :: past) start kind 0⟩ L)
    (ht : ∀ ts, Nests 0 ts → Nests m (t :: ts)) :
    Settles (fun n => size n - 1) (t :: past)
      (fun n c => if !continues kind c then S n c else skipFrom kind start (k n - 1) [] c)
      ⟨ends, ends, fun ts e => Skips past start kind m (t :: ts) e⟩ L := by
  have hless : ∀ n, size n - 1 - 1 ≤ k n - 1 := fun n => Nat.sub_le_sub_right (hk n) 1
  have hending := settles_ending kind start hless hS fun u =>
    (ih (fun n => Nat.sub_le_sub_right (hless n) 1) []).shorten (Nat.sub_le L 1)
  exact hending.weaken Set.Subset.rfl Set.Subset.rfl fun ts e hts => hts.cons (ht ts)

/-- A brace that closes the only open bracket could end the statement; other closing brackets only
    close what is open. -/
theorem runs_skipFrom_closer (ho : ¬ p.isOpener = true) (hcl : p.isCloser = true) (opened : List (Punct × Span)) :
    RunsAt size past (fun n => skipFrom kind start (k n) opened) (.skipped kind start past opened.length) (L + 1)
      ⟨.punct p, s⟩ := by
  cases opened with
  | nil => exact runs_skipFrom_halt (.inr ⟨p, rfl, hcl⟩)
  | cons o opened =>
    have hstep {n : Nat} {c c' : Cursor} (hc : c.current = ⟨.punct p, s⟩) (hadvance : c.advance = c') (hn : 1 < size n) :
        skipFrom kind start (k n) (o :: opened) c =
          if opened.isEmpty && p == .rbrace && !continues kind c' then skipped kind start (c'.skip .semicolon)
          else skipFrom kind start (k n - 1) opened c' := by
      rw [skipFrom_punct kind start hk hc hadvance hn, if_neg ho, if_pos hcl]
    by_cases hb : opened = [] ∧ p = .rbrace
    · obtain ⟨rfl, rfl⟩ := hb
      have hS : Settles (fun n => size n - 1) (⟨.punct .rbrace, s⟩ :: past)
          (fun _ c => skipped kind start (c.skip .semicolon))
          ⟨ends, ends, Skips (⟨.punct .rbrace, s⟩ :: past) start kind 0⟩ L :=
        settles_skip (fun last => Node.unsupported (start.merge last) kind) (by simp [ends]) ⟨.nil, by simp⟩
          fun s => ⟨nests_token rfl, by simp⟩
      refine RunsAt.cons (by simp) (fun n c c' hc hadvance hn => ?_)
        (settles_skipFrom_ending hk ih hS fun ts hts => .closer rfl hts)
      simpa using hstep hc hadvance hn
    · refine RunsAt.cons (by simp) (fun n c c' hc hadvance hn => (hstep hc hadvance hn).trans (if_neg fun hcond => hb ?_))
        ((ih (fun n => Nat.sub_le_sub_right (hk n) 1) opened).weaken Set.Subset.rfl Set.Subset.rfl
          fun us e hus => hus.cons (.closer hcl))
      simp only [Bool.and_eq_true, List.isEmpty_iff, beq_iff_eq] at hcond
      exact hcond.1

/-- A semicolon outside all brackets could end the statement. -/
theorem runs_skipFrom_level (ho : ¬ p.isOpener = true) (hcl : ¬ p.isCloser = true) (opened : List (Punct × Span)) :
    RunsAt size past (fun n => skipFrom kind start (k n) opened) (.skipped kind start past opened.length) (L + 1)
      ⟨.punct p, s⟩ := by
  have hlevel : isLevel (.punct p) = true := by simp [isLevel, ho, hcl]
  have hstep {n : Nat} {c c' : Cursor} (hc : c.current = ⟨.punct p, s⟩) (hadvance : c.advance = c') (hn : 1 < size n) :
      skipFrom kind start (k n) opened c =
        if p == .semicolon && opened.isEmpty && !continues kind c' then skipped kind start c'
        else skipFrom kind start (k n - 1) opened c' := by
    rw [skipFrom_punct kind start hk hc hadvance hn, if_neg ho, if_neg hcl]
  by_cases hb : p = .semicolon ∧ opened = []
  · obtain ⟨rfl, rfl⟩ := hb
    have hS : Settles (fun n => size n - 1) (⟨.punct .semicolon, s⟩ :: past)
        (fun _ c => skipped kind start c) ⟨ends, ends, Skips (⟨.punct .semicolon, s⟩ :: past) start kind 0⟩ L :=
      settles_pure (fun last => Node.unsupported (start.merge last) kind) ⟨.nil, by simp⟩ Set.Subset.rfl
    refine RunsAt.cons (by simp) (fun n c c' hc hadvance hn => ?_)
      (settles_skipFrom_ending hk ih hS fun ts hts => .other hlevel hts)
    simpa using hstep hc hadvance hn
  · refine RunsAt.cons (by simp) (fun n c c' hc hadvance hn => (hstep hc hadvance hn).trans (if_neg fun hcond => hb ?_))
      ((ih (fun n => Nat.sub_le_sub_right (hk n) 1) opened).weaken Set.Subset.rfl Set.Subset.rfl
        fun us e hus => hus.cons (.other hlevel))
    simp only [Bool.and_eq_true, List.isEmpty_iff, beq_iff_eq] at hcond
    exact hcond.1

end

theorem settles_skipFrom (L : Nat) : Skipping kind start L := by
  induction L with
  | zero => exact fun _ _ => settles_zero
  | succ L ih =>
    intro past size k hk opened
    refine ⟨?_, fun _ => ?_⟩
    · rintro ⟨k', s⟩
      cases k' with
      | eof => exact runs_skipFrom_eof opened s
      | punct p =>
        by_cases ho : p.isOpener = true
        · exact runs_skipFrom_opener hk ih ho opened
        by_cases hcl : p.isCloser = true
        · exact runs_skipFrom_closer hk ih ho hcl opened
        · exact runs_skipFrom_level hk ih ho hcl opened
      | number _ | string _ | ident _ | keyword _ =>
        apply RunsAt.cons (by simp)
        case hR =>
          intro n c c' hc hadvance hn
          rw [bound_eq (hk n) (Nat.sub_pos_of_lt hn), skipFrom, Cursor.kind_of_current hc, hadvance]
        case h =>
          exact (ih (fun n => Nat.sub_le_sub_right (hk n) 1) opened).weaken Set.Subset.rfl Set.Subset.rfl
            fun us e hus => hus.cons (.other rfl)
    · -- The brackets that are open are closed, and the statement ends.
      refine ⟨_, _, ⟨nests_replicate rfl .none _, rfl⟩, fun u hu => ⟨?_, takes_skipFrom kind start hk opened (halts_of_ends hu)⟩⟩
      cases opened with
      | nil => exact .inr hu
      | cons o opened => exact .inl rfl

end

/-! ## Statements -/

section
variable (h : Predicts L) (inBody : Bool) {t : Token}
include h

theorem settles_declarator : Settles (fun n => n) past (fun n => declarator (ofDepth n) inBody)
    ⟨fresh, ends, fun ts d => Covers (.declarator d) ts⟩ L := by
  cases L with
  | zero => exact settles_zero
  | succ L =>
    refine Settles.bind (settles_expectIdent ends) ?_
    rintro _ id rfl
    apply settles_eats .eq fun last => Node.declarator (id.span.merge last) (.ident id.span id.name) none
    case hX => simp [ends]
    case hresult => simpa using Covers.plain
    case hnone =>
      intro n c hc _
      simp only [hc]
      rfl
    case hsome =>
      intro n c c' hc _
      simp only [hc]
      rfl
    case h =>
      intro s
      refine Settles.bind ((h.expression inBody _).before ends_subset_closers).less fun us e he => ?_
      refine settles_pure (fun last => Node.declarator (id.span.merge last) (.ident id.span id.name) (some e)) ?_ Set.Subset.rfl
      simpa [spanOf] using Covers.initialized (s := id.span) (q := s) he

theorem settles_declarators {M : Nat} (hM : M ≤ L) {size k : Nat → Nat} (hk : ∀ n, size n ≤ k n)
    (hsize : ∀ n, size n ≤ n) :
    Settles size past (fun n => declarators (ofDepth n) inBody (k n))
      ⟨fresh, ends, fun ts ds => Covers (.declarators ds) ts⟩ M := by
  induction M generalizing size k past with
  | zero => exact settles_zero
  | succ M ih =>
    have hfirst : Settles size past (fun n => declarator (ofDepth n) inBody) _ (M + 1) :=
      ((settles_declarator h inBody).shorten hM).resize hsize
    have hread : Settles size past (fun n c => declarators (ofDepth n) inBody (k n - 1 + 1) c)
        ⟨fresh, ends, fun ts ds => Covers (.declarators ds) ts⟩ (M + 1) := by
      simp only [declarators]
      refine Settles.bind hfirst.within fun ts d hd => ?_
      apply settles_eats .comma fun _ => [d]
      case hX => simp [ends]
      case hresult => simpa using Covers.lastDeclarator hd
      case hnone =>
        intro n c hc _
        simp only [hc]
        rfl
      case hsome =>
        intro n c c' hc _
        simp only [hc]
        rfl
      case h =>
        intro s
        refine Settles.bind (ih (Nat.le_of_succ_le hM) (fun n => Nat.sub_le_sub_right (hk n) 1) fun n =>
          (Nat.sub_le _ 1).trans (hsize n)) fun us ds hds => ?_
        exact settles_ok (d :: ds) (by simpa using Covers.moreDeclarators (s := s) hd hds) Set.Subset.rfl
    refine hread.reindex id (fun n => Nat.le_refl _) fun n c hn => ?_
    rw [bound_eq (hk n) hn]
    rfl

theorem runs_variableDeclaration (word : DeclarationWord) (ht : t.kind = .keyword word.keyword) :
    RunsAt (fun n => n + 1) past (fun n => variableDeclaration (ofDepth n) inBody n word) .statement (L + 1) t := by
  obtain ⟨_, s⟩ := t
  cases ht
  apply RunsAt.cons (by simp)
  case hR =>
    intro n c c' hc hadvance _
    rw [variableDeclaration, hadvance, Cursor.span, hc]
  case h =>
    refine Settles.bind (settles_declarators h inBody (Nat.le_refl L) (fun n => Nat.le_refl n) fun n => Nat.le_refl n)
      fun ts ds hds => ?_
    refine settles_skip (fun last => Node.variables (s.merge last) word ds) (by simp [ends]) ?_ fun s' => ?_
    · simpa [spanOf] using Covers.declaration (s := s) hds optionalSemicolon_nil
    · simpa [spanOf] using Covers.declaration (s := s) hds (optionalSemicolon_token s')

theorem settles_namedFunction : Settles (fun n => n) past (fun n => namedFunction (ofDepth n) n)
    ⟨fresh, ends, fun ts f => ∃ us vs s s', ts = ⟨.ident f.1.name, f.1.span⟩ :: ⟨.punct .lparen, s⟩ ::
      (us ++ ⟨.punct .rparen, s'⟩ :: vs) ∧ Covers (.params f.2.1) us ∧ Covers (.statement f.2.2) vs⟩ L := by
  refine Settles.bind (settles_expectIdent {.punct .lparen}) ?_
  rintro _ id rfl
  refine Settles.bind (settles_paramsAndBody h ends) ?_
  rintro _ ⟨ps, body⟩ ⟨us, vs, s, s', rfl, hps, hbody⟩
  exact settles_ok (id, ps, body) ⟨us, vs, s, s', by simp, hps, hbody⟩ Set.Subset.rfl

theorem runs_functionDeclaration (ht : t.kind = .keyword .functionKw) :
    RunsAt (fun n => n + 1) past (fun n => functionDeclaration (ofDepth n) n) .statement (L + 1) t := by
  obtain ⟨_, s⟩ := t
  cases ht
  apply RunsAt.cons (by simp)
  case hR =>
    intro n c c' hc hadvance _
    rw [functionDeclaration, hadvance, Cursor.span, hc]
  case h =>
    refine Settles.bind (settles_namedFunction h).within ?_
    rintro _ ⟨id, ps, body⟩ ⟨us, vs, s₁, s₂, rfl, hps, hbody⟩
    refine settles_pure (fun last => Node.function (s.merge last) (.ident id.span id.name) ps body) ?_ Set.Subset.rfl
    simpa [spanOf] using Covers.function (s := s) hps hbody

/-- The argument of a `return`, if there is one. -/
theorem settles_returnArgument : Settles (fun n => n) past (fun n => returnArgument (ofDepth n) inBody)
    ⟨ends, ends, fun ts a => (a = none ∧ ts = []) ∨ ∃ e, a = some e ∧ Covers (.expression e) ts⟩ L := by
  refine Settles.branch {k | ¬ endsReturn k.tag = true} ?_ (settles_ok none (.inl ⟨rfl, rfl⟩) Set.Subset.rfl) ?_ ?_ ?_
  · intro t ht
    apply RunsAt.becomes (fun u => ¬ endsReturn u.tag = true) ht
    case hR =>
      intro n c hc _
      exact if_neg hc
    case h =>
      refine RunsAt.bind (((h.expression inBody _).before ends_subset_closers).runs t) fun us e he => ?_
      exact settles_ok (some e) (.inr ⟨e, rfl, by simpa using he⟩) Set.Subset.rfl
    case hX => exact fun hsub => by simpa [fresh] using hsub (.inl rfl)
  · simp [ends, endsReturn, TokenKind.tag]
  · simp [ends, endsReturn, TokenKind.tag]
  · intro n c hc _
    exact if_pos (not_not.mp hc)

theorem runs_returnStatement (ht : t.kind = .keyword .returnKw) :
    RunsAt (fun n => n + 1) past (fun n => returnStatement (ofDepth n) inBody) .statement (L + 1) t := by
  cases inBody with
  | false =>
    refine RunsAt.reject (e := ⟨.returnOutsideFunction, t.span, none⟩) ⟨rfl, ht⟩ ?_
    rintro n c rfl _
    rfl
  | true =>
    obtain ⟨_, s⟩ := t
    cases ht
    apply RunsAt.cons (by simp)
    case hR =>
      intro n c c' hc hadvance _
      rw [returnStatement, if_pos rfl, hadvance, Cursor.span, hc]
    case h =>
      refine Settles.bind (settles_returnArgument h true) ?_
      rintro us _ (⟨rfl, rfl⟩ | ⟨e, rfl, he⟩)
      · refine settles_skip (fun last => Node.returning (s.merge last) none) (by simp [ends]) ?_ fun s' => ?_
        · simpa [spanOf] using Covers.returning (s := s) optionalSemicolon_nil
        · simpa [spanOf] using Covers.returning (s := s) (optionalSemicolon_token s')
      · refine settles_skip (fun last => Node.returning (s.merge last) (some e)) (by simp [ends]) ?_ fun s' => ?_
        · simpa [spanOf] using Covers.returningValue (s := s) he optionalSemicolon_nil
        · simpa [spanOf] using Covers.returningValue (s := s) he (optionalSemicolon_token s')

theorem settles_expressionStatement :
    Settles (fun n => n + 1) past (fun n => expressionStatement (ofDepth n) inBody n)
      ⟨fresh, ends, fun ts s => Covers (.statement s) ts⟩ (L + 1) := by
  refine Settles.bind ((settles_expressionAt h inBody).before ends_subset_closers) fun ts e he => ?_
  refine settles_skip (fun last => Node.expression (e.span.merge last) e) (by simp [ends]) ?_ fun s' => ?_
  · simpa [he.expression_ne_nil] using Covers.expressionStatement he optionalSemicolon_nil
  · simpa using Covers.expressionStatement he (optionalSemicolon_token s')

omit h in
theorem runs_skipStatement (kind : String) (ht : ∃ w, t.kind = .keyword w) :
    RunsAt (fun n => n + 1) past (fun n => skipStatement kind n) .statement (L + 1) t := by
  obtain ⟨w, hw⟩ := ht
  apply RunsAt.cons (by simp [hw])
  case hR =>
    intro n c c' hc hadvance hn
    have hpos : 0 < n := Nat.lt_of_succ_lt_succ hn
    show skipFrom kind c.span n [] c = skipFrom kind t.span (n - 1) [] c'
    rw [Cursor.span, hc]
    nth_rewrite 1 [bound_eq (Nat.le_refl n) hpos]
    rw [skipFrom, Cursor.kind_of_current hc, hw, hadvance]
  case h =>
    have hrest : Settles (fun n => n) (t :: past) (fun n => skipFrom kind t.span (n - 1) []) _ L :=
      settles_skipFrom L (fun n => Nat.le_refl (n - 1)) []
    refine hrest.weaken Set.Subset.rfl Set.Subset.rfl ?_
    rintro us e ⟨hus, rfl⟩
    have hlevel : Nests 0 (t :: us) := (nests_token (by simp [isLevel, hw])).append hus
    have hcovers : Covers (.statement (.unsupported (spanOf (t :: us)) kind)) (t :: us) := .unsupportedStatement hlevel
    simpa [spanOf] using hcovers

theorem runs_keywordStatement {k : Keyword} (ht : t.kind = .keyword k) :
    RunsAt (fun n => n + 1) past (fun n => keywordStatement (ofDepth n) inBody n k) .statement (L + 1) t := by
  have hexpression : RunsAt (fun n => n + 1) past (fun n => expressionStatement (ofDepth n) inBody n) .statement (L + 1) t :=
    ((settles_expressionStatement h inBody).runs t).enter (by simp [Contract.Strict, ends, fresh])
  cases k with
  | varKw => exact runs_variableDeclaration h inBody .var ht
  | letKw => exact runs_variableDeclaration h inBody .letWord ht
  | constKw => exact runs_variableDeclaration h inBody .const ht
  | functionKw => exact runs_functionDeclaration h ht
  | returnKw => exact runs_returnStatement h inBody ht
  | _ => first | exact hexpression | exact runs_skipStatement _ ⟨_, ht⟩

theorem settles_statementAt :
    Settles (fun n => n + 1) past (fun n => statementAt (ofDepth n) inBody n) .statement (L + 1) := by
  have hempty (n : Nat) (c : Cursor) (s : Span) (hc : c.current = ⟨.punct .semicolon, s⟩) :
      statementAt (ofDepth n) inBody n c = .ok (.empty s, c.advance) := by
    rw [statementAt, Cursor.kind_of_current hc, Cursor.span, hc]
  refine ⟨?_, fun _ => finishes_token (.punct .semicolon) (.empty .none) (by simp) rfl .empty fun n c => hempty n c _⟩
  have hstrict {E : Set TokenKind} (hE : .eof ∉ E) : ¬ ends ⊆ E := fun hsub => hE (hsub (.inr rfl))
  rintro ⟨k, s⟩
  have becomes {R : Bounded Node} {E : Set TokenKind} (hE : .eof ∉ E)
      (hrun : RunsAt (fun n => n + 1) past R ⟨E, ends, fun ts s => Covers (.statement s) ts⟩ (L + 1) ⟨k, s⟩)
      (hR : ∀ n c, c.kind = k → statementAt (ofDepth n) inBody n c = R n c) :
      RunsAt (fun n => n + 1) past (fun n => statementAt (ofDepth n) inBody n) .statement (L + 1) ⟨k, s⟩ :=
    hrun.becomes (· = ⟨k, s⟩) rfl (hstrict hE) fun n c hc _ => hR n c (Cursor.kind_of_current hc)
  have hexpression : RunsAt (fun n => n + 1) past _ _ (L + 1) ⟨k, s⟩ := (settles_expressionStatement h inBody).runs _
  cases k with
  | keyword k => exact becomes (by simp) (runs_keywordStatement h inBody rfl) fun n c hc => by rw [statementAt, hc]
  | punct p =>
    cases p with
    | lbrace => exact becomes (by simp) (runs_block h inBody ends) fun n c hc => by rw [statementAt, hc]
    | semicolon => exact RunsAt.token (.empty s) (by simp) .empty fun n c hc => hempty n c s hc
    | _ => exact becomes (by simp [fresh]) hexpression fun n c hc => by rw [statementAt, hc]
  | _ => exact becomes (by simp [fresh]) hexpression fun n c hc => by rw [statementAt, hc]

end

/-! ## Programs -/

theorem predicts (L : Nat) : Predicts L := by
  induction L with
  | zero => exact ⟨fun _ _ => settles_zero, fun _ _ => settles_zero, fun _ _ => settles_zero, fun _ _ => settles_zero,
      fun _ _ => settles_zero⟩
  | succ L ih =>
    have deepen (read : Grammar → Cursor → Parsed (Node × Cursor)) {R : Bounded Node} {K : Contract Node} {past : List Token}
        (hread : ∀ n c, read (ofDepth (n + 1)) c = Stack.atLevel n fun _ => R n c)
        (hR : Settles (fun n => n + 1) past R K (L + 1)) :
        Settles (fun n => n) past (fun n => read (ofDepth n)) K (L + 1) := by
      refine hR.reindex (fun n => n - 1) (fun n => by omega) fun n c hn => ?_
      obtain ⟨m, rfl⟩ : ∃ m, n = m + 1 := ⟨n - 1, by omega⟩
      exact (hread m c).trans (Stack.atLevel_eq m _)
    constructor <;> intro inBody past
    · exact deepen (·.expression inBody) (fun _ _ => rfl) (settles_expressionAt ih inBody)
    · exact deepen (·.exponent inBody) (fun _ _ => rfl) (settles_exponentAt ih inBody)
    · exact deepen (·.unary inBody) (fun _ _ => rfl) (settles_unaryAt ih inBody)
    · exact deepen (·.primary inBody) (fun _ _ => rfl) (settles_primaryAt ih inBody)
    · exact deepen (·.statement inBody) (fun _ _ => rfl) (settles_statementAt ih inBody)

theorem settles_programStatements {size k : Nat → Nat} {item : Bounded Node}
    (hitem : ∀ past, Settles size past item .statement L) (hk : ∀ n, size n ≤ k n) :
    Settles size past (fun n => programStatements (item n) (k n)) ⟨{.eof}, {.eof}, fun ts ss => Covers (.statements ss) ts⟩ L := by
  have hover (c : Cursor) : c.atEnd = true ↔ c.kind ∈ ({.eof} : Set TokenKind) := by
    rw [Cursor.atEnd, beq_iff_eq]
    exact TokenKind.tag_eq_eof
  exact settles_sequence hover rfl (.inr rfl) (fun _ _ _ => rfl) hitem hk

end

end Treewalk.Grammar
