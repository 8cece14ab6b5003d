/-
  Treewalk.Proofs.RoundTrip — reading what was written gives the tree back.

  Proved: every statement that can be written is read, whatever follows it (`readsStatement`), and so
  is every program (`parseTokens_print`): the tree is the one that was written, but for its spans. The
  bounds on nesting and on rounds never matter, as each level and each round has a token of its own.
-/

import Treewalk.Proofs.RoundTrip.Expressions

namespace Treewalk

open Node

namespace Grammar

section
variable {inBody : Bool} {n : Nat} {c : Cursor} {rest : List TokenKind}

/-! ## Declarations -/

theorem gives_declarator (inBody : Bool) {d : Node} (hd : d.IsDeclarator) (hs : d.Supported) (hc : c.kinds = d.print ++ rest)
    (hn : d.print.length ≤ n) (hstop : Stops 0 rest) :
    Gives (·.bare = d.bare) rest (declarator (ofDepth n) inBody c) := by
  cases hd with
  | plain =>
    unfold declarator
    refine gives_bind (gives_expectIdent hc) fun id c₁ hid hc₁ => ?_
    dsimp only
    rw [(hc₁ ▸ hstop : Stops 0 c₁.kinds).eats? rfl (Nat.le_refl 0)]
    exact gives_ok (by simp [bare, hid]) hc₁
  | initialized hi =>
    have hread := (readable hi (hs.child (List.mem_cons_of_mem _ List.mem_cons_self))).reads 0 (Nat.zero_le 6)
    simp only [print, List.cons_append, List.nil_append, List.length_cons] at hc hn
    unfold declarator
    refine gives_bind (gives_expectIdent hc) fun id c₁ hid hc₁ => ?_
    obtain ⟨heat, hc₂⟩ := Cursor.eats?_of_kinds hc₁
    dsimp only
    rw [heat]
    refine gives_bind (hread.expression hc₂ (by omega) hstop) fun e c₃ he hc₃ => ?_
    exact gives_ok (by simp [bare, hid, he]) hc₃

theorem gives_declarators {ds : List Node} (hne : ds ≠ []) (hds : ∀ d ∈ ds, d.IsDeclarator)
    (hs : ∀ d ∈ ds, d.Supported) (hn : (commas (ds.map print)).length ≤ n) {k : Nat} (hk : ds.length ≤ k + 1)
    (hc : c.kinds = commas (ds.map print) ++ .punct .semicolon :: rest) :
    Gives (fun as => as.map bare = ds.map bare) (.punct .semicolon :: rest) (declarators (ofDepth n) inBody k c) := by
  induction ds generalizing c k with
  | nil => exact absurd rfl hne
  | cons d ds ih =>
    have hd := hds d List.mem_cons_self
    have hsd := hs d List.mem_cons_self
    have hlen := length_le_commas (List.mem_map_of_mem (f := print) (List.mem_cons_self (a := d) (l := ds)))
    cases ds with
    | nil =>
      have hread := gives_declarator (n := n) inBody hd hsd hc (by omega) (stops_punct rest (by simp [binding]))
      cases k with
      | zero =>
        refine gives_bind (gives_within hread) fun a c₁ ha hc₁ => ?_
        exact gives_ok (by simp [ha]) hc₁
      | succ k =>
        refine gives_bind (gives_within hread) fun a c₁ ha hc₁ => ?_
        dsimp only
        rw [Cursor.eats?_of_ne hc₁ (by simp [TokenKind.tag])]
        exact gives_ok (by simp [ha]) hc₁
    | cons d₂ ds =>
      obtain ⟨k, rfl⟩ : ∃ j, k = j + 1 := ⟨k - 1, by simp only [List.length_cons] at hk; omega⟩
      have hc' : c.kinds = d.print ++ .punct .comma :: (commas ((d₂ :: ds).map print) ++ .punct .semicolon :: rest) := by
        rw [hc, List.map_cons, List.map_cons, commas, List.append_assoc]
        rfl
      have hread := gives_declarator (n := n) inBody hd hsd hc' (by omega) (stops_punct _ (by simp [binding]))
      refine gives_bind (gives_within hread) fun a c₁ ha hc₁ => ?_
      obtain ⟨heat, hc₂⟩ := Cursor.eats?_of_kinds hc₁
      dsimp only
      rw [heat]
      have hn' : (commas ((d₂ :: ds).map print)).length ≤ n := by
        simp only [List.map_cons, commas, List.length_append, List.length_cons] at hn ⊢
        omega
      refine gives_bind (ih (by simp) (fun x hx => hds x (List.mem_cons_of_mem _ hx))
        (fun x hx => hs x (List.mem_cons_of_mem _ hx)) hn' (by simp only [List.length_cons] at hk ⊢; omega) hc₂)
        fun as c₃ has hc₃ => ?_
      exact gives_ok (by rw [List.map_cons, ha, has]; rfl) hc₃

theorem gives_params {ps : List Param} {k : Nat} (hk : ps.length ≤ k)
    (hc : c.kinds = printParams ps ++ .punct .rparen :: rest) :
    Gives (fun qs => qs.map (·.name) = ps.map (·.name)) (.punct .rparen :: rest) (params k c) := by
  induction ps generalizing c k with
  | nil =>
    cases k with
    | zero => exact gives_ok rfl hc
    | succ k =>
      unfold params
      rw [Cursor.check_of_kinds hc]
      exact gives_ok rfl hc
  | cons p ps ih =>
    obtain ⟨k, rfl⟩ : ∃ j, k = j + 1 := ⟨k - 1, by simp only [List.length_cons] at hk; omega⟩
    simp only [List.length_cons, Nat.add_le_add_iff_right] at hk
    cases ps with
    | nil =>
      unfold params
      rw [Cursor.check_of_kinds hc, Cursor.atEnd_of_kinds hc]
      refine gives_bind (gives_within (gives_expectIdent hc)) fun q c₁ hq hc₁ => ?_
      dsimp only
      rw [Cursor.eats?_of_ne hc₁ (by simp [TokenKind.tag])]
      exact gives_ok (by simp [hq]) hc₁
    | cons p₂ ps =>
      have hc' : c.kinds = .ident p.name :: .punct .comma :: (printParams (p₂ :: ps) ++ .punct .rparen :: rest) := hc
      unfold params
      rw [Cursor.check_of_kinds hc', Cursor.atEnd_of_kinds hc']
      refine gives_bind (gives_within (gives_expectIdent hc')) fun q c₁ hq hc₁ => ?_
      obtain ⟨heat, hc₂⟩ := Cursor.eats?_of_kinds hc₁
      dsimp only
      rw [heat]
      refine gives_bind (ih hk hc₂) fun qs c₃ hqs hc₃ => ?_
      exact gives_ok (by rw [List.map_cons, hq, hqs]; rfl) hc₃

/-! ## Statements -/

/-- A statement is read, whatever follows. -/
structure ReadsStatement (inBody : Bool) (s : Node) : Prop where
  opens : Begins TokenKind.opensStatement s.print
  reads : ∀ n c rest, c.kinds = s.print ++ rest → s.print.length < n →
    Gives (·.bare = s.bare) rest ((ofDepth n).statement inBody c)

/-- Nothing that ends a list of statements begins one. -/
theorem opensStatement_tag {k : TokenKind} (h : k.opensStatement = true) :
    k.tag ≠ .eof ∧ k.tag ≠ .punct .rbrace := by
  unfold TokenKind.opensStatement at h
  rcases Bool.or_eq_true_iff.mp h with h | h
  · exact ⟨(opensExpression_tag h).2.1, (opensExpression_tag h).2.2.2.2.1⟩
  · split at h
    case h_8 => cases h
    all_goals simp [TokenKind.tag]

theorem count_le_flatten {ss : List Node} (h : ∀ s ∈ ss, ReadsStatement inBody s) :
    ss.length ≤ (ss.map print).flatten.length := by
  induction ss with
  | nil => exact Nat.le_refl 0
  | cons s ss ih =>
    obtain ⟨k, ks, hk, -⟩ := (h s List.mem_cons_self).opens
    have hrest := ih fun d hd => h d (List.mem_cons_of_mem _ hd)
    simp only [List.map_cons, List.flatten_cons, List.length_append, List.length_cons, hk] at hrest ⊢
    omega

/-- The first of several statements, and what comes after it. -/
theorem ReadsStatement.head {s : Node} {ss : List Node} (h : ReadsStatement inBody s)
    (hc : c.kinds = ((s :: ss).map print).flatten ++ rest) :
    c.atEnd = false ∧ c.check (.punct .rbrace) = false ∧ c.kinds = s.print ++ ((ss.map print).flatten ++ rest) := by
  obtain ⟨k, ks, hk, hopen⟩ := h.opens
  have hc' : c.kinds = s.print ++ ((ss.map print).flatten ++ rest) := by
    rw [hc, List.map_cons, List.flatten_cons, List.append_assoc]
  have htag := opensStatement_tag hopen
  have hfirst := hc'
  rw [hk, List.cons_append] at hfirst
  rw [Cursor.atEnd_of_kinds hfirst, Cursor.check_of_kinds hfirst]
  exact ⟨by simp [htag.1], by simp [htag.2], hc'⟩

theorem gives_statements {ss : List Node} (hss : ∀ s ∈ ss, ReadsStatement inBody s)
    (hn : (ss.map print).flatten.length < n) {k : Nat} (hk : ss.length ≤ k)
    (hc : c.kinds = (ss.map print).flatten ++ .punct .rbrace :: rest) :
    Gives (fun as => as.map bare = ss.map bare) (.punct .rbrace :: rest)
      (statements ((ofDepth n).statement inBody) k c) := by
  induction ss generalizing c k with
  | nil =>
    cases k with
    | zero => exact gives_ok rfl hc
    | succ k =>
      unfold statements
      rw [Cursor.check_of_kinds hc]
      exact gives_ok rfl hc
  | cons s ss ih =>
    obtain ⟨k, rfl⟩ : ∃ j, k = j + 1 := ⟨k - 1, by simp only [List.length_cons] at hk; omega⟩
    have hs := hss s List.mem_cons_self
    obtain ⟨hend, hbrace, hc'⟩ := hs.head hc
    simp only [List.map_cons, List.flatten_cons, List.length_append, List.length_cons] at hn hk
    unfold statements
    rw [hend, hbrace]
    refine gives_bind (hs.reads n c _ hc' (by omega)) fun a c₁ ha hc₁ => ?_
    refine gives_bind (ih (fun d hd => hss d (List.mem_cons_of_mem _ hd)) (by omega) (by omega) hc₁)
      fun as c₂ has hc₂ => ?_
    exact gives_ok (by rw [List.map_cons, ha, has]; rfl) hc₂

theorem gives_programStatements {ss : List Node} (hss : ∀ s ∈ ss, ReadsStatement inBody s)
    (hn : (ss.map print).flatten.length < n) {k : Nat} (hk : ss.length ≤ k)
    (hc : c.kinds = (ss.map print).flatten ++ [.eof]) :
    Gives (fun as => as.map bare = ss.map bare) [.eof] (programStatements ((ofDepth n).statement inBody) k c) := by
  induction ss generalizing c k with
  | nil =>
    cases k with
    | zero => exact gives_ok rfl hc
    | succ k =>
      unfold programStatements
      rw [Cursor.atEnd_of_kinds hc]
      exact gives_ok rfl hc
  | cons s ss ih =>
    obtain ⟨k, rfl⟩ : ∃ j, k = j + 1 := ⟨k - 1, by simp only [List.length_cons] at hk; omega⟩
    have hs := hss s List.mem_cons_self
    obtain ⟨hend, -, hc'⟩ := hs.head hc
    simp only [List.map_cons, List.flatten_cons, List.length_append, List.length_cons] at hn hk
    unfold programStatements
    rw [hend]
    refine gives_bind (hs.reads n c _ hc' (by omega)) fun a c₁ ha hc₁ => ?_
    refine gives_bind (ih (fun d hd => hss d (List.mem_cons_of_mem _ hd)) (by omega) (by omega) hc₁)
      fun as c₂ has hc₂ => ?_
    exact gives_ok (by rw [List.map_cons, ha, has]; rfl) hc₂

theorem gives_block {ss : List Node} (hss : ∀ s ∈ ss, ReadsStatement inBody s)
    (hn : (ss.map print).flatten.length < n)
    (hc : c.kinds = .punct .lbrace :: ((ss.map print).flatten ++ .punct .rbrace :: rest)) :
    Gives (·.bare = .block .none (ss.map bare)) rest (block ((ofDepth n).statement inBody) n c) := by
  have hcount := count_le_flatten hss
  unfold block
  refine gives_bind (gives_expect hc) fun opened c₁ _ hc₁ => ?_
  refine gives_bind (gives_statements hss hn (by omega) hc₁) fun as c₂ has hc₂ => ?_
  refine gives_bind (gives_within (gives_expectClosing hc₂)) fun _ c₃ _ hc₃ => ?_
  exact gives_ok (by simp [bare, has]) hc₃

theorem ofDepth_statement (inBody : Bool) (n : Nat) (c : Cursor) :
    (ofDepth (n + 1)).statement inBody c = statementAt (ofDepth n) inBody n c := by
  simp only [ofDepth, next, Stack.atLevel_eq]

/-- To be read by the parsers of the level below is enough. -/
theorem readsStatement_of {s : Node} (ho : Begins TokenKind.opensStatement s.print)
    (h : ∀ n c rest, c.kinds = s.print ++ rest → s.print.length ≤ n →
      Gives (·.bare = s.bare) rest (statementAt (ofDepth n) inBody n c)) : ReadsStatement inBody s := by
  refine ⟨ho, fun n c rest hc hn => ?_⟩
  obtain ⟨m, rfl⟩ : ∃ m, n = m + 1 := ⟨n - 1, by omega⟩
  rw [ofDepth_statement]
  exact h m c rest hc (by omega)

theorem gives_variableDeclaration {ds : List Node} (hne : ds ≠ []) (hds : ∀ d ∈ ds, d.IsDeclarator)
    (hs : ∀ d ∈ ds, d.Supported) (word : DeclarationWord) (hn : (commas (ds.map print)).length ≤ n)
    (hc : c.kinds = .keyword word.keyword :: (commas (ds.map print) ++ .punct .semicolon :: rest)) :
    Gives (·.bare = .variables .none word (ds.map bare)) rest (variableDeclaration (ofDepth n) inBody n word c) := by
  have hcount : ds.length ≤ (commas (ds.map print)).length := by
    have h := count_le_commas (ds.map print) fun ts hts => by
      obtain ⟨d, hd, rfl⟩ := List.mem_map.mp hts
      cases hds d hd <;> simp [print]
    simpa using h
  have hc₁ := Cursor.kinds_advance hc (by simp [TokenKind.tag])
  unfold variableDeclaration
  refine gives_bind (gives_declarators hne hds hs hn (by omega) hc₁) fun as c₂ has hc₂ => ?_
  exact gives_ok (by simp [bare, has]) (Cursor.kinds_skip hc₂)

theorem gives_functionDeclaration {span at_ blockSpan : Span} {name : String} {ps : List Param} {ss : List Node}
    (hss : ∀ s ∈ ss, ReadsStatement true s)
    (hn : (Node.function span (.ident at_ name) ps (.block blockSpan ss)).print.length ≤ n)
    (hc : c.kinds = (Node.function span (.ident at_ name) ps (.block blockSpan ss)).print ++ rest) :
    Gives (·.bare = (Node.function span (.ident at_ name) ps (.block blockSpan ss)).bare) rest
      (functionDeclaration (ofDepth n) n c) := by
  simp only [print, printEach_eq_map, List.cons_append, List.append_assoc, List.nil_append, List.length_cons,
    List.length_append, List.length_nil] at hc hn
  have hparams : ps.length ≤ (printParams ps).length := by
    have h := count_le_commas (ps.map fun p => [.ident p.name]) (by simp)
    simpa [printParams] using h
  have hbody : ∀ c₁ : Cursor, c₁.kinds = .punct .lparen :: (printParams ps ++ .punct .rparen ::
      .punct .lbrace :: ((ss.map print).flatten ++ .punct .rbrace :: rest)) →
      Gives (fun pb => pb.1.map (·.name) = ps.map (·.name) ∧ pb.2.bare = .block .none (ss.map bare)) rest
        (paramsAndBody (ofDepth n) n c₁) := by
    intro c₁ hc₁
    unfold paramsAndBody
    refine gives_bind (gives_expect hc₁) fun opened c₂ _ hc₂ => ?_
    refine gives_bind (gives_params (by omega) hc₂) fun qs c₃ hqs hc₃ => ?_
    refine gives_bind (gives_within (gives_expectClosing hc₃)) fun _ c₄ _ hc₄ => ?_
    refine gives_bind (gives_block hss (by omega) hc₄) fun b c₅ hb hc₅ => ?_
    exact gives_ok ⟨hqs, hb⟩ hc₅
  have hnamed : Gives (fun r => r.1.name = name ∧ r.2.1.map (·.name) = ps.map (·.name) ∧
      r.2.2.bare = .block .none (ss.map bare)) rest (namedFunction (ofDepth n) n c.advance) := by
    unfold namedFunction
    refine gives_bind (gives_expectIdent (Cursor.kinds_advance hc (by simp [TokenKind.tag]))) fun id c₁ hid hc₁ => ?_
    refine gives_bind (hbody c₁ hc₁) fun pb c₂ hpb hc₂ => ?_
    exact gives_ok ⟨hid, hpb⟩ hc₂
  unfold functionDeclaration
  refine gives_bind (gives_within hnamed) ?_
  rintro ⟨id, qs, b⟩ c₁ ⟨hid, hqs, hb⟩ hc₁
  refine gives_ok ?_ hc₁
  have hbare : qs.map (fun q => (⟨q.name, .none⟩ : Param)) = ps.map fun p => ⟨p.name, .none⟩ := by
    have := congrArg (List.map fun x => (⟨x, .none⟩ : Param)) hqs
    simpa [Function.comp_def] using this
  dsimp only at hid hb
  simp only [bare, bareAll_eq_map, hid, hb, hbare]

theorem gives_returnStatement {argument : Option Node} {span : Span} (harg : ∀ e ∈ argument, e.IsExpression)
    (hs : (Node.returning span argument).Supported) (hn : (Node.returning span argument).print.length ≤ n)
    (hc : c.kinds = (Node.returning span argument).print ++ rest) :
    Gives (·.bare = (Node.returning span argument).bare) rest (returnStatement (ofDepth n) true c) := by
  unfold returnStatement
  cases argument with
  | none =>
    have hc₁ := Cursor.kinds_advance hc (by simp [TokenKind.tag])
    have hnone : Gives (· = none) (.punct .semicolon :: rest) (returnArgument (ofDepth n) true c.advance) := by
      unfold returnArgument
      rw [Cursor.tag_of_kinds hc₁]
      exact gives_ok rfl hc₁
    refine gives_bind hnone fun a c₂ ha hc₂ => ?_
    exact gives_ok (by rw [ha]; rfl) (Cursor.kinds_skip hc₂)
  | some e =>
    have he := readable (harg e rfl) (hs.child List.mem_cons_self)
    simp only [print, List.cons_append, List.append_assoc, List.nil_append, List.length_cons, List.length_append,
      List.length_nil] at hc hn
    have hc₁ := Cursor.kinds_advance hc (by simp [TokenKind.tag])
    have hsome : Gives (fun a => ∃ e', a = some e' ∧ e'.bare = e.bare) (.punct .semicolon :: rest)
        (returnArgument (ofDepth n) true c.advance) := by
      obtain ⟨k, ks, hk, hopen⟩ := he.opens.append (.punct .semicolon :: rest)
      have hends : endsReturn c.advance.tag = false := by
        obtain ⟨-, heof, -, -, hbrace, hsemi⟩ := opensExpression_tag hopen
        rw [Cursor.tag_of_kinds (hc₁.trans hk)]
        unfold endsReturn
        split <;> simp_all
      unfold returnArgument
      rw [hends]
      have hread : Gives (·.bare = e.bare) (.punct .semicolon :: rest) ((ofDepth n).expression true c.advance) :=
        (he.reads 0 (Nat.zero_le 6)).expression hc₁ (by omega) (stops_punct rest (by simp [binding]))
      refine gives_bind hread fun e' c₂ he' hc₂ => ?_
      exact gives_ok ⟨e', rfl, he'⟩ hc₂
    refine gives_bind hsome ?_
    rintro a c₂ ⟨e', rfl, he'⟩ hc₂
    exact gives_ok (by simp [bare, he']) (Cursor.kinds_skip hc₂)

theorem gives_expressionStatement {e : Node} {span : Span} (he : Readable e) (hn : e.print.length ≤ n)
    (hc : c.kinds = e.print ++ .punct .semicolon :: rest) :
    Gives (·.bare = (Node.expression span e).bare) rest (statementAt (ofDepth n) inBody n c) := by
  have hread : Gives (·.bare = (Node.expression span e).bare) rest (expressionStatement (ofDepth n) inBody n c) := by
    have hp : e.printAt 0 = e.print := printAt_of_le (Nat.zero_le _)
    have hstop : Stops 0 (.punct .semicolon :: rest) := stops_punct rest (by simp [binding])
    unfold expressionStatement
    refine gives_bind (he.reads 0 (Nat.zero_le 6) inBody n c _ (hp ▸ hc) (hp ▸ hn) hstop) fun e' c₁ he' hc₁ => ?_
    exact gives_ok (by simp [bare, he']) (Cursor.kinds_skip hc₁)
  -- No token that begins an expression begins a statement of another kind.
  obtain ⟨k, ks, hk, hopen⟩ := he.opens.append (.punct .semicolon :: rest)
  unfold statementAt
  rw [Cursor.kind_of_kinds (hc.trans hk)]
  unfold TokenKind.opensExpression at hopen
  split at hopen
  case h_10 => cases hopen
  all_goals exact hread

/-- Every statement that can be written is read back. -/
theorem readsStatement {s : Node} (hst : s.IsStatement inBody) (hs : s.Supported) : ReadsStatement inBody s := by
  have ho := hst.print_opens hs
  induction hst with
  | declaration hne hds =>
    rename_i inBody span word ds
    refine readsStatement_of ho fun n c rest hc hn => ?_
    simp only [print, printEach_eq_map, List.cons_append, List.append_assoc, List.nil_append, List.length_cons,
      List.length_append, List.length_nil] at hc hn
    have hread : Gives (·.bare = .variables .none word (ds.map bare)) rest
        (variableDeclaration (ofDepth n) inBody n word c) :=
      gives_variableDeclaration hne hds (fun d hd => hs.child hd) word (by omega) hc
    unfold statementAt
    rw [Cursor.kind_of_kinds hc, show (Node.variables span word ds).bare = .variables .none word (ds.map bare) by
      simp [bare]]
    cases word <;> exact hread
  | function hbody ih =>
    refine readsStatement_of ho fun n c rest hc hn => ?_
    have hsb := hs.child (List.mem_cons_of_mem _ List.mem_cons_self)
    have hss : ∀ s ∈ _, ReadsStatement true s := fun s hm =>
      ih s hm (hsb.child hm) ((hbody s hm).print_opens (hsb.child hm))
    have hread := gives_functionDeclaration hss hn hc
    unfold statementAt
    rw [Cursor.kind_of_kinds hc]
    exact hread
  | returning harg =>
    refine readsStatement_of ho fun n c rest hc hn => ?_
    have hread := gives_returnStatement harg hs hn hc
    rename_i span argument
    have hkind : c.kind = .keyword .returnKw := by
      cases argument <;> exact Cursor.kind_of_kinds hc
    unfold statementAt
    rw [hkind]
    exact hread
  | block hbody ih =>
    rename_i inBody span ss
    refine readsStatement_of ho fun n c rest hc hn => ?_
    have hss : ∀ s ∈ ss, ReadsStatement inBody s := fun s hm =>
      ih s hm (hs.child hm) ((hbody s hm).print_opens (hs.child hm))
    simp only [print, printEach_eq_map, List.cons_append, List.append_assoc, List.nil_append, List.length_cons,
      List.length_append, List.length_nil] at hc hn
    have hread := gives_block (n := n) hss (by omega) hc
    unfold statementAt
    rw [Cursor.kind_of_kinds hc, show (Node.block span ss).bare = .block .none (ss.map bare) by simp [bare]]
    exact hread
  | expression he =>
    refine readsStatement_of ho fun n c rest hc hn => ?_
    simp only [print, List.append_assoc, List.cons_append, List.nil_append, List.length_append, List.length_cons,
      List.length_nil] at hc hn
    exact gives_expressionStatement (readable he (hs.child List.mem_cons_self)) (by omega) hc
  | empty =>
    refine readsStatement_of ho fun n c rest hc _ => ?_
    unfold statementAt
    rw [Cursor.kind_of_kinds hc]
    exact gives_ok rfl (Cursor.kinds_advance hc (by simp [TokenKind.tag]))
  | unsupported => exact absurd hs not_supported_unsupported

end

end Grammar

end Treewalk
