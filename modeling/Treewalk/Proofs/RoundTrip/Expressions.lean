/-
  Treewalk.Proofs.RoundTrip.Expressions — written expressions are read back.

  One lemma for each kind of expression says how it is read at its own level, from how its parts are
  read; all other levels follow (`readable_of`). Proved: every expression without constructs that are
  only recognised is read at every level (`readable`).
-/

import Treewalk.Proofs.RoundTrip.Levels

namespace Treewalk

open Node

namespace Grammar

/-! ## Lists -/

theorem length_le_commas {ts : List TokenKind} {tss : List (List TokenKind)} (h : ts ∈ tss) :
    ts.length ≤ (commas tss).length := by
  fun_induction commas tss with
  | case1 => cases h
  | case2 us => exact Nat.le_of_eq (congrArg List.length (List.mem_singleton.mp h))
  | case3 us vs rest ih =>
    simp only [List.length_append, List.length_cons]
    rcases List.mem_cons.mp h with rfl | h
    · omega
    · have := ih h
      omega

theorem count_le_commas (tss : List (List TokenKind)) (h : ∀ ts ∈ tss, ts ≠ []) : tss.length ≤ (commas tss).length := by
  fun_induction commas tss with
  | case1 => exact Nat.le_refl 0
  | case2 us => exact List.length_pos_iff.mpr (h us List.mem_cons_self)
  | case3 us vs rest ih =>
    have hpos := List.length_pos_iff.mpr (h us List.mem_cons_self)
    have hrest := ih fun ts hts => h ts (List.mem_cons_of_mem _ hts)
    simp only [List.length_append, List.length_cons] at hrest ⊢
    omega

section
variable {inBody : Bool} {n : Nat} {c : Cursor} {rest : List TokenKind}

/-- A list of expressions in front of its closing bracket. -/
theorem gives_commaList {es : List Node} (hes : ∀ e ∈ es, Readable e) {close : Punct}
    (hclose : close = .rparen ∨ close = .rbracket) (hn : (commas (es.map print)).length < n) {k : Nat}
    (hk : es.length ≤ k) (hc : c.kinds = commas (es.map print) ++ .punct close :: rest) :
    Gives (fun as => as.map bare = es.map bare) (.punct close :: rest)
      (commaList ((ofDepth n).expression inBody) close k c) := by
  have hstop : Stops 0 (.punct close :: rest) := by
    rcases hclose with rfl | rfl <;> exact stops_punct rest (by simp [binding])
  induction es generalizing c k with
  | nil =>
    cases k with
    | zero => exact gives_ok rfl hc
    | succ k =>
      unfold commaList
      rw [Cursor.check_of_kinds hc]
      simp only [TokenKind.tag, beq_self_eq_true, Bool.true_or, if_true]
      exact gives_ok rfl hc
  | cons e es ih =>
    obtain ⟨k, rfl⟩ : ∃ j, k = j + 1 := ⟨k - 1, by simp only [List.length_cons] at hk; omega⟩
    have he := hes e List.mem_cons_self
    have hlen := length_le_commas (List.mem_map_of_mem (f := print) (List.mem_cons_self (a := e) (l := es)))
    -- An expression begins with neither the closing bracket nor the end.
    have hgo : (c.check (.punct close) || c.atEnd) = false := by
      obtain ⟨t, ts, ht, hopen⟩ := he.opens
      have hkinds : ∃ us, c.kinds = t :: us := by
        cases es with
        | nil => exact ⟨_, by rw [hc, List.map_cons, List.map_nil, commas, ht]; rfl⟩
        | cons e₂ es => exact ⟨_, by rw [hc, List.map_cons, List.map_cons, commas, ht]; rfl⟩
      obtain ⟨us, hus⟩ := hkinds
      obtain ⟨-, heof, hparen, hbracket, -, -⟩ := opensExpression_tag hopen
      rw [Cursor.check_of_kinds hus, Cursor.atEnd_of_kinds hus]
      rcases hclose with rfl | rfl
      · simp [heof, hparen]
      · simp [heof, hbracket]
    unfold commaList
    rw [hgo]
    cases es with
    | nil =>
      refine gives_bind ((he.reads 0 (by omega)).expression hc (by omega) hstop) fun a c₁ ha hc₁ => ?_
      have hne : (TokenKind.punct close).tag ≠ .punct .comma := by
        rcases hclose with rfl | rfl <;> simp [TokenKind.tag]
      dsimp only
      rw [Cursor.eats?_of_ne hc₁ hne]
      exact gives_ok (by simp [ha]) hc₁
    | cons e₂ es =>
      have hc' : c.kinds = e.print ++ .punct .comma :: (commas ((e₂ :: es).map print) ++ .punct close :: rest) := by
        rw [hc, List.map_cons, List.map_cons, commas, List.append_assoc]
        rfl
      have hstop₁ : Stops 0 (.punct .comma :: (commas ((e₂ :: es).map print) ++ .punct close :: rest)) :=
        stops_punct _ (by simp [binding])
      refine gives_bind ((he.reads 0 (by omega)).expression hc' (by omega) hstop₁) fun a c₁ ha hc₁ => ?_
      obtain ⟨heat, hc₂⟩ := Cursor.eats?_of_kinds hc₁
      dsimp only
      rw [heat]
      have hn' : (commas ((e₂ :: es).map print)).length < n := by
        simp only [List.map_cons, commas, List.length_append, List.length_cons] at hn ⊢
        omega
      refine gives_bind (ih (fun d hd => hes d (List.mem_cons_of_mem _ hd)) hn'
        (by simp only [List.length_cons] at hk ⊢; omega) hc₂) fun as c₃ has hc₃ => ?_
      exact gives_ok (by rw [List.map_cons, ha, has]; rfl) hc₃

theorem print_ne_nil {e : Node} (h : Readable e) : e.print ≠ [] := by
  obtain ⟨k, ks, hk, -⟩ := h.opens
  rw [hk]
  exact List.cons_ne_nil k ks

theorem count_le_of_readable {es : List Node} (hes : ∀ e ∈ es, Readable e) :
    es.length ≤ (commas (es.map print)).length := by
  have h := count_le_commas (es.map print) fun ts hts => by
    obtain ⟨e, he, rfl⟩ := List.mem_map.mp hts
    exact print_ne_nil (hes e he)
  simpa using h

/-! ## Expressions -/

/-- An expression of one token. -/
theorem readable_of_token (leaf : Span → Node) {k : TokenKind} (span : Span) (hp : (leaf span).precedence = 6)
    (hprint : (leaf span).print = [k]) (hopen : k.opensExpression = true)
    (hbare : ∀ other, (leaf other).bare = (leaf span).bare)
    (h : ∀ g inBody n (c : Cursor), c.kind = k → primaryAt g inBody n c = .ok (leaf c.span, c.advance)) :
    Readable (leaf span) := by
  refine readable_of_suffixed ⟨k, [], hprint, hopen⟩ hp fun inBody n c rest hc _ => reaches_of_gives ?_
  rw [printAt_of_le (Nat.le_of_eq hp.symm), hprint] at hc
  rw [h (ofDepth n) inBody n c (Cursor.kind_of_kinds hc)]
  exact gives_ok (hbare c.span) (Cursor.kinds_advance hc (opensExpression_tag hopen).2.1)

/-- The brackets of an array are its own. -/
theorem suffixed_array {span : Span} {es : List Node} (hes : ∀ e ∈ es, Readable e) : Suffixed (.array span es) := by
  intro inBody n c rest hc hn
  rw [printAt_of_le (Nat.le_refl 6)] at hc hn
  simp only [print, printEach_eq_map, List.cons_append, List.append_assoc, List.length_cons, List.length_append,
    List.length_nil, List.nil_append] at hc hn
  have hc₁ := Cursor.kinds_advance hc (by simp [TokenKind.tag])
  have hcount := count_le_of_readable hes
  refine reaches_of_gives ?_
  unfold primaryAt
  rw [Cursor.kind_of_kinds hc]
  refine gives_bind (gives_within (gives_commaList hes (.inr rfl) (by omega) (by omega) hc₁)) fun as c₂ has hc₂ => ?_
  refine gives_bind (gives_within (gives_expectClosing hc₂)) fun _ c₃ _ hc₃ => ?_
  exact gives_ok (by simp [bare, has]) hc₃

/-- One round of the loop over member accesses and calls. -/
theorem Suffixed.step {o e : Node} (ho : Suffixed o) (hp : e.precedence = 6) (suffix : List TokenKind)
    (hprint : e.print = o.printAt 6 ++ suffix) (hne : suffix ≠ [])
    (hstep : ∀ inBody n o' c rest, o'.bare = o.bare → c.kinds = suffix ++ rest → e.print.length ≤ n →
      ∃ e' c', e'.bare = e.bare ∧ c'.kinds = rest ∧
        ∀ k, suffixes (ofDepth n) inBody n (k + 1) o' c = suffixes (ofDepth n) inBody n k e' c') :
    Suffixed e := by
  intro inBody n c rest hc hn
  have hlen : (o.printAt 6).length + 1 ≤ e.print.length := by
    have := List.length_pos_iff.mpr hne
    rw [hprint, List.length_append]
    omega
  rw [printAt_of_le (Nat.le_of_eq hp.symm)] at hc hn ⊢
  rw [hprint, List.append_assoc] at hc
  have hreach := ho inBody n c (suffix ++ rest) hc (by omega)
  exact (hreach.step fun o' c' ho' hc' => hstep inBody n o' c' rest ho' hc' hn).mono hlen

theorem suffixed_dotted {span at_ : Span} {o : Node} {name : String} (ho : Suffixed o) :
    Suffixed (.member span o (.ident at_ name) false) := by
  refine ho.step rfl [.punct .dot, .ident name] rfl (by simp) ?_
  intro inBody n o' c rest ho' hc _
  have hc₁ := Cursor.kinds_advance hc (by simp [TokenKind.tag])
  have hread : Gives (·.bare = (Node.member span o (.ident at_ name) false).bare) rest (dotMember o' c) := by
    unfold dotMember
    refine gives_bind (gives_within (gives_propertyName hc₁)) fun p c₂ hp hc₂ => ?_
    exact gives_ok (by simp [bare, ho', hp]) hc₂
  obtain ⟨e', c', he, hbare, hc'⟩ := hread
  refine ⟨e', c', hbare, hc', fun k => ?_⟩
  simp only [suffixes, Cursor.kind_of_kinds hc, he]
  rfl

theorem suffixed_computed {span : Span} {o p : Node} (ho : Suffixed o) (hp : Readable p) :
    Suffixed (.member span o p true) := by
  refine ho.step rfl (.punct .lbracket :: p.print ++ [.punct .rbracket]) ?_ (by simp) ?_
  · simp only [print, printAt, List.append_assoc]
  intro inBody n o' c rest ho' hc hn
  simp only [print, List.cons_append, List.append_assoc, List.length_append, List.length_cons, List.nil_append,
    List.length_nil] at hc hn
  have hc₁ := Cursor.kinds_advance hc (by simp [TokenKind.tag])
  have hstop : Stops 0 (.punct .rbracket :: rest) := stops_punct rest (by simp [binding])
  have hread : Gives (·.bare = (Node.member span o p true).bare) rest (computedMember (ofDepth n) inBody o' c) := by
    unfold computedMember
    refine gives_bind (gives_within ((hp.reads 0 (by omega)).expression hc₁ (by omega) hstop)) fun p' c₂ hp' hc₂ => ?_
    refine gives_bind (gives_within (gives_expectClosing hc₂)) fun _ c₃ _ hc₃ => ?_
    exact gives_ok (by simp [bare, ho', hp']) hc₃
  obtain ⟨e', c', he, hbare, hc'⟩ := hread
  refine ⟨e', c', hbare, hc', fun k => ?_⟩
  simp only [suffixes, Cursor.kind_of_kinds hc, he]
  rfl

theorem suffixed_call {span : Span} {f : Node} {as : List Node} (hf : Suffixed f) (has : ∀ a ∈ as, Readable a) :
    Suffixed (.call span f as) := by
  refine hf.step rfl (.punct .lparen :: commas (as.map print) ++ [.punct .rparen]) ?_ (by simp) ?_
  · simp only [print, printAt, printEach_eq_map, List.append_assoc]
  intro inBody n f' c rest hf' hc hn
  simp only [print, printEach_eq_map, List.cons_append, List.append_assoc, List.length_append, List.length_cons,
    List.nil_append, List.length_nil] at hc hn
  have hcount := count_le_of_readable has
  have hread : Gives (·.bare = (Node.call span f as).bare) rest (callOf (ofDepth n) inBody n f' c) := by
    have hargs : Gives (fun bs => bs.map bare = as.map bare) rest (arguments (ofDepth n) inBody n c) := by
      unfold arguments
      refine gives_bind (gives_expect hc) fun _ c₁ _ hc₁ => ?_
      refine gives_bind (gives_commaList has (.inl rfl) (by omega) (by omega) hc₁) fun bs c₂ hbs hc₂ => ?_
      refine gives_bind (gives_expectClosing hc₂) fun _ c₃ _ hc₃ => ?_
      exact gives_ok hbs hc₃
    unfold callOf
    refine gives_bind (gives_within hargs) fun bs c₁ hbs hc₁ => ?_
    exact gives_ok (by simp [bare, hf', hbs]) hc₁
  obtain ⟨e', c', he, hbare, hc'⟩ := hread
  refine ⟨e', c', hbare, hc', fun k => ?_⟩
  simp only [suffixes, Cursor.kind_of_kinds hc, he]
  rfl

/-! ## Operators -/

theorem chainsAt_binary (span : Span) {op : BinaryOp} {l r : Node} (hop : op.groupsRight = false) (hl : Readable l)
    (hr : Readable r) : ChainsAt op.precedence (.binary span op l r) := by
  have hb : 1 ≤ op.precedence ∧ op.precedence ≤ 4 := by
    cases op with
    | exp => cases hop
    | _ => decide
  intro inBody n c rest hc hn hs
  have hprint : (Node.binary span op l r).printAt op.precedence =
      l.printAt op.precedence ++ .punct op.punct :: r.printAt (op.precedence + 1) := by
    have hown : op.precedence ≤ (Node.binary span op l r).precedence := Nat.le_refl _
    rw [printAt_of_le hown, print, BinaryOp.leftLevel, BinaryOp.rightLevel, hop]
    rfl
  rw [hprint] at hc hn ⊢
  simp only [List.append_assoc, List.cons_append, List.length_append, List.length_cons] at hc hn ⊢
  have hstop : Stops (op.precedence + 1) (.punct op.punct :: (r.printAt (op.precedence + 1) ++ rest)) := by
    refine stops_punct _ fun s hs => ?_
    rw [binding_op] at hs
    cases hs
    exact Nat.lt_succ_self _
  have hleft := hl.chains op.precedence hb.1 hb.2 inBody n c _ hc (by omega) hstop
  refine (hleft.step fun l' c₁ hl' hc₁ => ?_).mono (by omega)
  have htag : joinsAt op.precedence c₁.tag = some (joined op) := by
    rw [Cursor.tag_of_kinds hc₁]
    exact joinsAt_op hop
  have hc₂ := Cursor.kinds_advance hc₁ (by simp [TokenKind.tag])
  obtain ⟨r', c₃, hread, hr', hc₃⟩ := hr.reads (op.precedence + 1) (by omega) inBody n _ rest hc₂ (by omega) hs
  refine ⟨joined op l' r', c₃, by simp [joined, bare, hl', hr'], hc₃, fun k => ?_⟩
  simp only [chainFrom, htag, hread]
  rfl

theorem ChainsAt.readsAt {level : Nat} {e : Node} (h₁ : 1 ≤ level) (h₂ : level ≤ 4) (h : ChainsAt level e) :
    ReadsAt level e := by
  intro inBody n c rest hc hn hs
  rw [levelAt_chain h₁ h₂]
  refine (h inBody n c rest hc hn (hs.mono (by omega))).gives hn fun k e' c' hc' => ?_
  exact chainFrom_none (hc' ▸ hs : Stops level c'.kinds).joinsAt k e'

/-- A power is read from its base on, the exponent one nesting level further in. -/
theorem readsAt_exp {span : Span} {l r : Node} (hl : Readable l) (hr : Readable r) :
    ReadsAt 5 (.binary span .exp l r) := by
  intro inBody n c rest hc hn hs
  have hprint : (Node.binary span .exp l r).printAt 5 = l.printAt 6 ++ .punct .starStar :: r.printAt 5 := by
    rw [printAt_of_le (Nat.le_refl 5), print]
    rfl
  rw [hprint] at hc hn
  simp only [List.append_assoc, List.cons_append, List.length_append, List.length_cons] at hc hn
  have hsign : isSign c.tag = false := by
    obtain ⟨k, ks, hk, hopen⟩ := (hl.opens.grouped 6 l).append (.punct .starStar :: (r.printAt 5 ++ rest))
    rw [Cursor.tag_of_kinds (hc.trans hk)]
    exact (opensExpression_tag hopen).1
  have hstop : Stops 6 (.punct .starStar :: (r.printAt 5 ++ rest)) := stops_punct _ (by simp [binding])
  show Gives _ rest (exponentAt (ofDepth n) inBody n c)
  unfold exponentAt unaryAt
  rw [hsign]
  refine gives_bind (hl.reads 6 (by omega) inBody n c _ hc (by omega) hstop) fun l' c₁ hl' hc₁ => ?_
  obtain ⟨heat, hc₂⟩ := Cursor.eats?_of_kinds hc₁
  dsimp only
  rw [heat]
  refine gives_bind ((hr.reads 5 (by omega)).exponent hc₂ (by omega) hs) fun r' c₃ hr' hc₃ => ?_
  exact gives_ok (by simp [joined, bare, hl', hr']) hc₃

theorem readable_binary {span : Span} {op : BinaryOp} {l r : Node}
    (ho : Begins TokenKind.opensExpression (Node.binary span op l r).print) (hl : Readable l) (hr : Readable r) :
    Readable (.binary span op l r) := by
  have hb := op.precedence_bounds
  have hsix : (Node.binary span op l r).precedence ≠ 6 := by
    show op.precedence ≠ 6
    omega
  cases hop : op.groupsRight with
  | true =>
    obtain rfl : op = .exp := by simpa [BinaryOp.groupsRight] using hop
    exact readable_of ho (readsAt_exp hl hr) (fun h => absurd h (by simp [precedence, BinaryOp.precedence]))
      fun h => absurd h hsix
  | false =>
    have hchain := chainsAt_binary span hop hl hr
    have hfour : op.precedence ≤ 4 := by
      cases op with
      | exp => cases hop
      | _ => decide
    exact readable_of ho (hchain.readsAt hb.1 hfour) (fun _ => hchain) fun h => absurd h hsix

/-- Every expression that can be written is read back. -/
theorem readable {e : Node} (he : e.IsExpression) (hs : e.Supported) : Readable e := by
  have ho := he.print_opens hs
  induction he with
  | binary hl hr ihl ihr =>
    have hsl := hs.child List.mem_cons_self
    have hsr := hs.child (List.mem_cons_of_mem _ List.mem_cons_self)
    exact readable_binary ho (ihl hsl (hl.print_opens hsl)) (ihr hsr (hr.print_opens hsr))
  | ident =>
    refine readable_of_token (.ident · _) _ rfl rfl rfl (fun _ => rfl) fun g inBody n c hk => ?_
    rw [primaryAt, hk]
  | number =>
    refine readable_of_token (.number · _) _ rfl rfl rfl (fun _ => rfl) fun g inBody n c hk => ?_
    rw [primaryAt, hk]
  | string =>
    refine readable_of_token (.string · _) _ rfl rfl rfl (fun _ => rfl) fun g inBody n c hk => ?_
    rw [primaryAt, hk]
  | bool =>
    rename_i span b
    cases b with
    | true =>
      refine readable_of_token (.bool · true) _ rfl rfl rfl (fun _ => rfl) fun g inBody n c hk => ?_
      rw [primaryAt, hk]
    | false =>
      refine readable_of_token (.bool · false) _ rfl rfl rfl (fun _ => rfl) fun g inBody n c hk => ?_
      rw [primaryAt, hk]
  | null =>
    refine readable_of_token .null _ rfl rfl rfl (fun _ => rfl) fun g inBody n c hk => ?_
    rw [primaryAt, hk]
  | this =>
    refine readable_of_token .this _ rfl rfl rfl (fun _ => rfl) fun g inBody n c hk => ?_
    rw [primaryAt, hk]
  | array hes ih =>
    refine readable_of_suffixed ho rfl (suffixed_array fun e he => ?_)
    have hse := hs.child he
    exact ih e he hse ((hes e he).print_opens hse)
  | dotted hobj ih =>
    have hso := hs.child List.mem_cons_self
    exact readable_of_suffixed ho rfl (suffixed_dotted (ih hso (hobj.print_opens hso)).suffixed)
  | computed hobj hprop iho ihp =>
    have hso := hs.child List.mem_cons_self
    have hsp := hs.child (List.mem_cons_of_mem _ List.mem_cons_self)
    exact readable_of_suffixed ho rfl
      (suffixed_computed (iho hso (hobj.print_opens hso)).suffixed (ihp hsp (hprop.print_opens hsp)))
  | call hcallee hargs ihc iha =>
    have hsc := hs.child List.mem_cons_self
    refine readable_of_suffixed ho rfl (suffixed_call (ihc hsc (hcallee.print_opens hsc)).suffixed fun a ha => ?_)
    have hsa := hs.child (List.mem_cons_of_mem _ ha)
    exact iha a ha hsa ((hargs a ha).print_opens hsa)
  | unsupported => exact absurd hs not_supported_unsupported

end

end Grammar

end Treewalk
