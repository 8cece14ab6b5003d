/-
  Treewalk.Proofs.RoundTrip.Levels — reading an expression at a level of precedence.

  Reading at a level stops where the next token does not bind as tightly (`Stops`). `ReadsAt level e`:
  in front of such a token, the parser of the level reads the tokens of `e` and nothing else, and what
  it reads is `e` but for the spans. Loops over operators and over member accesses take the left
  operand first, so an expression is followed through them from its innermost left operand outwards
  (`Reaches`).

  Proved: an expression that is read at its own level is read at every level, with parentheses or
  without (`readable_of`).
-/

import Treewalk.Proofs.Ahead
import Treewalk.Proofs.Printing

namespace Treewalk

open Node

namespace Grammar

/-! ## What parsers give -/

/-- The parser succeeds with something that satisfies `P` and leaves the tokens `rest`. -/
def Gives {α : Type} (P : α → Prop) (rest : List TokenKind) (r : Parsed (α × Cursor)) : Prop :=
  ∃ a c, r = .ok (a, c) ∧ P a ∧ c.kinds = rest

section
variable {α β : Type} {P : α → Prop} {Q : β → Prop} {c : Cursor} {ks rest : List TokenKind}

theorem gives_ok {a : α} (ha : P a) (hc : c.kinds = rest) : Gives P rest (.ok (a, c)) := ⟨a, c, rfl, ha, hc⟩

theorem gives_bind {r : Parsed (α × Cursor)} {f : α × Cursor → Parsed (β × Cursor)} (h : Gives P ks r)
    (hf : ∀ a c, P a → c.kinds = ks → Gives Q rest (f (a, c))) : Gives Q rest (r >>= f) := by
  obtain ⟨a, c, rfl, ha, hc⟩ := h
  exact hf a c ha hc

theorem gives_within {context : Context} {r : Parsed (α × Cursor)} (h : Gives P rest r) :
    Gives P rest (within context r) := by
  obtain ⟨a, c, rfl, ha, hc⟩ := h
  exact ⟨a, c, rfl, ha, hc⟩

theorem gives_expect {p : Punct} (h : c.kinds = .punct p :: ks) : Gives (fun _ => True) ks (expect p c) := by
  simp only [expect, c.check_of_kinds h, TokenKind.tag, beq_self_eq_true, if_true]
  exact gives_ok trivial (Cursor.kinds_advance h (by simp [TokenKind.tag]))

theorem gives_expectClosing {p opener : Punct} {opened : Span} (h : c.kinds = .punct p :: ks) :
    Gives (fun _ => True) ks (expectClosing p opener opened c) := by
  unfold expectClosing
  rw [Cursor.atEnd_of_kinds h]
  exact gives_expect h

theorem gives_expectIdent {name : String} (h : c.kinds = .ident name :: ks) :
    Gives (·.name = name) ks (expectIdent c) := by
  unfold expectIdent
  rw [Cursor.kind_of_kinds h]
  exact gives_ok rfl (Cursor.kinds_advance h (by simp [TokenKind.tag]))

theorem gives_propertyName {name : String} (h : c.kinds = .ident name :: ks) :
    Gives (·.bare = .ident .none name) ks (propertyName c) := by
  unfold propertyName
  rw [Cursor.kind_of_kinds h]
  exact gives_ok rfl (Cursor.kinds_advance h (by simp [TokenKind.tag]))

end

/-! ## Levels -/

/-- How tightly a token binds what stands before it; `none` if it begins something else. -/
def binding : Tag → Option Nat
  | .punct .eq | .punct .question | .punct .pipePipe | .punct .ampAmp => some 0
  | .punct .eqEq | .punct .notEq | .punct .eqEqEq | .punct .notEqEq => some 1
  | .punct .lt | .punct .ltEq | .punct .gt | .punct .gtEq => some 2
  | .punct .plus | .punct .minus => some 3
  | .punct .star | .punct .slash | .punct .percent => some 4
  | .punct .starStar => some 5
  | .punct .dot | .punct .lbracket | .punct .lparen => some 6
  | _ => none

/-- The first token does not go on with an expression that is read at `level`. -/
def Stops (level : Nat) (rest : List TokenKind) : Prop :=
  ∃ k ks, rest = k :: ks ∧ ∀ s ∈ binding k.tag, s < level

theorem Stops.mono {l l' : Nat} {rest : List TokenKind} (h : Stops l rest) (hl : l ≤ l') : Stops l' rest := by
  obtain ⟨k, ks, hk, hs⟩ := h
  exact ⟨k, ks, hk, fun s hb => Nat.lt_of_lt_of_le (hs s hb) hl⟩

theorem stops_punct {level : Nat} {p : Punct} (ks : List TokenKind) (h : ∀ s ∈ binding (.punct p), s < level) :
    Stops level (.punct p :: ks) := ⟨_, ks, rfl, h⟩

/-- A token that binds at least as tightly as the level asks for does not stop it. -/
theorem Stops.tag_ne {level s : Nat} {c : Cursor} {t : Tag} (h : Stops level c.kinds) (ht : binding t = some s)
    (hs : level ≤ s) : c.tag ≠ t := by
  obtain ⟨k, ks, hk, hb⟩ := h
  rw [Cursor.tag_of_kinds hk]
  rintro rfl
  have := hb s ht
  omega

theorem Stops.eats? {level s : Nat} {c : Cursor} {p : Punct} (h : Stops level c.kinds)
    (hp : binding (.punct p) = some s) (hs : level ≤ s) : c.eats? p = none := by
  simp [Cursor.eats?, Cursor.check, h.tag_ne hp hs]

theorem binding_op (op : BinaryOp) : binding (.punct op.punct) = some op.precedence := by
  cases op <;> rfl

/-- The operators of a level that groups to the left. -/
def joinsAt : Nat → Joins
  | 1 => equalityJoins
  | 2 => relationJoins
  | 3 => sumJoins
  | 4 => productJoins
  | _ => fun _ => none

/-- The parser of a level. -/
def levelAt (inBody : Bool) (n : Nat) : Nat → Cursor → Parsed (Node × Cursor)
  | 0 => expressionAt (ofDepth n) inBody n
  | 1 => equalityAt (ofDepth n) inBody n
  | 2 => relationAt (ofDepth n) inBody n
  | 3 => sumAt (ofDepth n) inBody n
  | 4 => productAt (ofDepth n) inBody n
  | 5 => exponentAt (ofDepth n) inBody n
  | _ => postfixAt (ofDepth n) inBody n

theorem levelAt_chain {level : Nat} (h₁ : 1 ≤ level) (h₂ : level ≤ 4) (inBody : Bool) (n : Nat) :
    levelAt inBody n level = chain (joinsAt level) (levelAt inBody n (level + 1)) n := by
  match level, h₁, h₂ with
  | 1, _, _ | 2, _, _ | 3, _, _ | 4, _, _ => rfl

theorem joinsAt_op {op : BinaryOp} (h : op.groupsRight = false) :
    joinsAt op.precedence (.punct op.punct) = some (joined op) := by
  cases op with
  | exp => cases h
  | _ => rfl

theorem binding_of_joinsAt {level : Nat} {t : Tag} {join : Node → Node → Node} (h : joinsAt level t = some join) :
    binding t = some level := by
  unfold joinsAt at h
  split at h
  · unfold equalityJoins at h
    split at h <;> cases h <;> rfl
  · unfold relationJoins at h
    split at h <;> cases h <;> rfl
  · unfold sumJoins at h
    split at h <;> cases h <;> rfl
  · unfold productJoins at h
    split at h <;> cases h <;> rfl
  · cases h

/-! ## Reading at a level -/

/-- The parser of a level reads the expression as it is written in a place of that level. -/
def ReadsAt (level : Nat) (e : Node) : Prop :=
  ∀ (inBody : Bool) (n : Nat) (c : Cursor) (rest : List TokenKind), c.kinds = e.printAt level ++ rest →
    (e.printAt level).length ≤ n → Stops level rest → Gives (·.bare = e.bare) rest (levelAt inBody n level c)

/-- A loop that begins with `first` comes to have read the expression, after at most `rounds` rounds. -/
def Reaches (first : Cursor → Parsed (Node × Cursor)) (loop : Nat → Node → Cursor → Parsed (Node × Cursor))
    (e : Node) (rounds : Nat) (c : Cursor) (rest : List TokenKind) : Prop :=
  ∃ e' c' j, j ≤ rounds ∧ e'.bare = e.bare ∧ c'.kinds = rest ∧
    ∀ k, (do let (x, c) ← first c; loop (k + j) x c) = loop k e' c'

/-- The loop over the operators of a level comes to have read the expression. -/
def ChainsAt (level : Nat) (e : Node) : Prop :=
  ∀ (inBody : Bool) (n : Nat) (c : Cursor) (rest : List TokenKind), c.kinds = e.printAt level ++ rest →
    (e.printAt level).length ≤ n → Stops (level + 1) rest →
      Reaches (levelAt inBody n (level + 1)) (chainFrom (joinsAt level) (levelAt inBody n (level + 1))) e
        (e.printAt level).length c rest

/-- The loop over member accesses and calls comes to have read the expression. -/
def Suffixed (e : Node) : Prop :=
  ∀ (inBody : Bool) (n : Nat) (c : Cursor) (rest : List TokenKind), c.kinds = e.printAt 6 ++ rest →
    (e.printAt 6).length ≤ n →
      Reaches (primaryAt (ofDepth n) inBody n) (suffixes (ofDepth n) inBody n) e (e.printAt 6).length c rest

structure Readable (e : Node) : Prop where
  opens : Begins TokenKind.opensExpression e.print
  reads : ∀ level ≤ 6, ReadsAt level e
  chains : ∀ level, 1 ≤ level → level ≤ 4 → ChainsAt level e
  suffixed : Suffixed e

section
variable {first : Cursor → Parsed (Node × Cursor)} {loop : Nat → Node → Cursor → Parsed (Node × Cursor)}
variable {e : Node} {rounds : Nat} {c : Cursor} {rest : List TokenKind}

theorem reaches_of_gives (h : Gives (·.bare = e.bare) rest (first c)) : Reaches first loop e rounds c rest := by
  obtain ⟨e', c', he, hbare, hc⟩ := h
  refine ⟨e', c', 0, Nat.zero_le _, hbare, hc, fun k => ?_⟩
  rw [he]
  rfl

/-- One more round. -/
theorem Reaches.step {d : Node} {mid : List TokenKind} (h : Reaches first loop d rounds c mid)
    (hstep : ∀ d' c', d'.bare = d.bare → c'.kinds = mid →
      ∃ e' c'', e'.bare = e.bare ∧ c''.kinds = rest ∧ ∀ k, loop (k + 1) d' c' = loop k e' c'') :
    Reaches first loop e (rounds + 1) c rest := by
  obtain ⟨d', c', j, hj, hd, hc, hk⟩ := h
  obtain ⟨e', c'', he, hc', hloop⟩ := hstep d' c' hd hc
  refine ⟨e', c'', j + 1, by omega, he, hc', fun k => ?_⟩
  rw [← hloop k, ← hk (k + 1)]
  simp only [Nat.add_assoc, Nat.add_comm 1 j]

theorem Reaches.mono {rounds' : Nat} (h : Reaches first loop e rounds c rest) (hr : rounds ≤ rounds') :
    Reaches first loop e rounds' c rest := by
  obtain ⟨e', c', j, hj, h⟩ := h
  exact ⟨e', c', j, by omega, h⟩

/-- A loop that is not to go on gives what it has. -/
theorem Reaches.gives {n : Nat} (h : Reaches first loop e rounds c rest) (hn : rounds ≤ n)
    (hstop : ∀ k e' c', c'.kinds = rest → loop k e' c' = .ok (e', c')) :
    Gives (·.bare = e.bare) rest (do let (x, c) ← first c; loop n x c) := by
  obtain ⟨e', c', j, hj, he, hc, hk⟩ := h
  have hread := hk (n - j)
  rw [Nat.sub_add_cancel (by omega), hstop _ _ _ hc] at hread
  exact ⟨e', c', hread, he, hc⟩

end

theorem chainFrom_none {joins : Joins} {operand : Cursor → Parsed (Node × Cursor)} {c : Cursor}
    (h : joins c.tag = none) (k : Nat) (e : Node) : chainFrom joins operand k e c = .ok (e, c) := by
  cases k with
  | zero => rfl
  | succ k => simp only [chainFrom, h]

theorem Stops.joinsAt {level : Nat} {c : Cursor} (h : Stops level c.kinds) : joinsAt level c.tag = none := by
  cases hj : Grammar.joinsAt level c.tag with
  | none => rfl
  | some join => exact absurd rfl (h.tag_ne (binding_of_joinsAt hj) (Nat.le_refl _))

theorem suffixes_stops {g : Grammar} {inBody : Bool} {n : Nat} {c : Cursor} (h : Stops 6 c.kinds) (k : Nat)
    (e : Node) : suffixes g inBody n k e c = .ok (e, c) := by
  cases k with
  | zero => rfl
  | succ k =>
    have hne : ∀ {p s}, binding (.punct p) = some s → 6 ≤ s → c.kind ≠ .punct p := by
      intro p s hp hs hk
      exact h.tag_ne hp hs (congrArg TokenKind.tag hk)
    unfold suffixes
    split
    · exact absurd ‹_› (hne rfl (Nat.le_refl 6))
    · exact absurd ‹_› (hne rfl (Nat.le_refl 6))
    · exact absurd ‹_› (hne rfl (Nat.le_refl 6))
    · rfl

/-! ## From one level to the next looser one -/

theorem gives_chain {P : Node → Prop} {joins : Joins} {operand : Cursor → Parsed (Node × Cursor)} {c : Cursor}
    {rest : List TokenKind} (h : Gives P rest (operand c)) (hj : ∀ c : Cursor, c.kinds = rest → joins c.tag = none) (k : Nat) :
    Gives P rest (chain joins operand k c) := by
  unfold chain
  refine gives_bind h fun e c' he hc => ?_
  dsimp only
  rw [chainFrom_none (hj c' hc)]
  exact gives_ok he hc

/-- In front of a token that goes on with nothing, an expression ends at every level. -/
theorem gives_expressionAt {P : Node → Prop} {inBody : Bool} {n : Nat} {c : Cursor} {rest : List TokenKind}
    (h : Gives P rest (equalityAt (ofDepth n) inBody n c)) (hs : Stops 0 rest) :
    Gives P rest (expressionAt (ofDepth n) inBody n c) := by
  have hand : ∀ c : Cursor, c.kinds = rest → andJoins c.tag = none := by
    intro c hc
    unfold andJoins
    split
    · exact absurd ‹_› ((hc ▸ hs : Stops 0 c.kinds).tag_ne rfl (Nat.le_refl 0))
    · rfl
  have hor : ∀ c : Cursor, c.kinds = rest → orJoins c.tag = none := by
    intro c hc
    unfold orJoins
    split
    · exact absurd ‹_› ((hc ▸ hs : Stops 0 c.kinds).tag_ne rfl (Nat.le_refl 0))
    · rfl
  have hcond : Gives P rest (conditionalAt (ofDepth n) inBody n c) := by
    unfold conditionalAt
    refine gives_bind (gives_chain (gives_chain h hand n) hor n) fun e c' he hc => ?_
    dsimp only
    rw [(hc ▸ hs : Stops 0 c'.kinds).eats? rfl (Nat.le_refl 0)]
    exact gives_ok he hc
  unfold expressionAt
  refine gives_bind hcond fun e c' he hc => ?_
  dsimp only
  rw [(hc ▸ hs : Stops 0 c'.kinds).eats? rfl (Nat.le_refl 0)]
  exact gives_ok he hc

theorem gives_exponentAt {P : Node → Prop} {inBody : Bool} {n : Nat} {c : Cursor} {rest : List TokenKind}
    (h : Gives P rest (postfixAt (ofDepth n) inBody n c)) (hsign : isSign c.tag = false) (hs : Stops 5 rest) :
    Gives P rest (exponentAt (ofDepth n) inBody n c) := by
  unfold exponentAt unaryAt
  rw [hsign]
  refine gives_bind h fun e c' he hc => ?_
  dsimp only
  rw [(hc ▸ hs : Stops 5 c'.kinds).eats? rfl (Nat.le_refl 5)]
  exact gives_ok he hc

/-- What the parser of a level reads, that of the next looser level reads too where it stops. -/
theorem gives_looser {P : Node → Prop} {inBody : Bool} {n level : Nat} {c : Cursor} {rest : List TokenKind}
    (hl : level ≤ 5) (h : Gives P rest (levelAt inBody n (level + 1) c)) (hsign : isSign c.tag = false)
    (hs : Stops level rest) : Gives P rest (levelAt inBody n level c) := by
  rcases Nat.eq_zero_or_pos level with rfl | hpos
  · exact gives_expressionAt h hs
  · rcases Nat.lt_or_ge level 5 with hlt | hge
    · rw [levelAt_chain hpos (by omega)]
      exact gives_chain h (fun c hc => (hc ▸ hs : Stops level c.kinds).joinsAt) n
    · obtain rfl : level = 5 := by omega
      exact gives_exponentAt h hsign hs

/-- No sign begins a written expression, nor does anything that ends one. -/
theorem opensExpression_tag {k : TokenKind} (h : k.opensExpression = true) :
    isSign k.tag = false ∧ k.tag ≠ .eof ∧ k.tag ≠ .punct .rparen ∧ k.tag ≠ .punct .rbracket ∧
      k.tag ≠ .punct .rbrace ∧ k.tag ≠ .punct .semicolon := by
  unfold TokenKind.opensExpression at h
  split at h
  case h_10 => cases h
  all_goals simp [TokenKind.tag, isSign]

section
variable {e : Node}

theorem ReadsAt.looser {level : Nat} (hl : level ≤ 5) (ho : Begins TokenKind.opensExpression e.print)
    (h : ReadsAt (level + 1) e) (hp : e.precedence ≠ level) : ReadsAt level e := by
  intro inBody n c rest hc hn hs
  rw [← printAt_succ hp] at hc hn
  have hsign : isSign c.tag = false := by
    obtain ⟨k, ks, hk, hopen⟩ := (ho.grouped (level + 1) e).append rest
    rw [Cursor.tag_of_kinds (hc.trans hk)]
    exact (opensExpression_tag hopen).1
  exact gives_looser hl (h inBody n c rest hc hn (hs.mono (by omega))) hsign hs

/-- Down from a level to the level below which nothing changes. -/
theorem ReadsAt.down {top : Nat} (ht : top ≤ 6) (ho : Begins TokenKind.opensExpression e.print)
    (h : ReadsAt top e) (low : Nat) (hlow : ∀ l, low ≤ l → l < top → e.precedence ≠ l) {level : Nat}
    (h₁ : low ≤ level) (h₂ : level ≤ top) : ReadsAt level e := by
  obtain ⟨d, rfl⟩ : ∃ d, top = level + d := ⟨top - level, by omega⟩
  induction d generalizing level with
  | zero => exact h
  | succ d ih =>
    have hnext : ReadsAt (level + 1) e := by
      have hsum : level + 1 + d = level + (d + 1) := by omega
      exact ih (by omega) (by omega) (hsum ▸ h) (fun l hl hlt => hlow l hl (by omega)) (by omega)
    exact hnext.looser (by omega) ho (hlow level h₁ (by omega))

/-! ## One nesting level further in -/

theorem ofDepth_expression (inBody : Bool) (n : Nat) (c : Cursor) :
    (ofDepth (n + 1)).expression inBody c = levelAt inBody n 0 c := by
  simp only [ofDepth, next, Stack.atLevel_eq]
  rfl

theorem ofDepth_exponent (inBody : Bool) (n : Nat) (c : Cursor) :
    (ofDepth (n + 1)).exponent inBody c = levelAt inBody n 5 c := by
  simp only [ofDepth, next, Stack.atLevel_eq]
  rfl

variable {inBody : Bool} {n : Nat} {c : Cursor} {rest : List TokenKind}

theorem ReadsAt.expression (h : ReadsAt 0 e) (hc : c.kinds = e.print ++ rest) (hn : e.print.length < n)
    (hs : Stops 0 rest) : Gives (·.bare = e.bare) rest ((ofDepth n).expression inBody c) := by
  have hp : e.printAt 0 = e.print := printAt_of_le (Nat.zero_le _)
  obtain ⟨m, rfl⟩ : ∃ m, n = m + 1 := ⟨n - 1, by omega⟩
  rw [ofDepth_expression]
  exact h inBody m c rest (hp ▸ hc) (hp ▸ (by omega)) hs

theorem ReadsAt.exponent (h : ReadsAt 5 e) (hc : c.kinds = e.printAt 5 ++ rest) (hn : (e.printAt 5).length < n)
    (hs : Stops 5 rest) : Gives (·.bare = e.bare) rest ((ofDepth n).exponent inBody c) := by
  obtain ⟨m, rfl⟩ : ∃ m, n = m + 1 := ⟨n - 1, by omega⟩
  rw [ofDepth_exponent]
  exact h inBody m c rest hc (by omega) hs

/-- An expression in parentheses is read whatever follows. -/
theorem ReadsAt.parenthesized (h : ReadsAt 0 e)
    (hc : c.kinds = .punct .lparen :: (e.print ++ .punct .rparen :: rest)) (hn : e.print.length < n) :
    Gives (·.bare = e.bare) rest (primaryAt (ofDepth n) inBody n c) := by
  have hc₁ := Cursor.kinds_advance hc (by simp [TokenKind.tag])
  unfold primaryAt
  rw [Cursor.kind_of_kinds hc]
  unfold Grammar.parenthesized
  refine gives_bind (gives_within (h.expression hc₁ hn (stops_punct rest (by simp [binding])))) fun e' c₂ he hc₂ => ?_
  refine gives_bind (gives_within (gives_expectClosing hc₂)) fun _ c₃ _ hc₃ => ?_
  exact gives_ok he hc₃

/-! ## All levels from one -/

theorem suffixed_of_readsAt (h : ReadsAt 0 e) (hp : e.precedence < 6) : Suffixed e := by
  intro inBody n c rest hc hn
  rw [printAt_of_lt hp] at hc hn
  simp only [List.cons_append, List.append_assoc, List.nil_append, List.length_cons, List.length_append,
    List.length_nil] at hc hn
  exact reaches_of_gives (h.parenthesized hc (by omega))

theorem Suffixed.readsAt (h : Suffixed e) : ReadsAt 6 e := by
  intro inBody n c rest hc hn hs
  exact (h inBody n c rest hc hn).gives hn fun k e' c' hc' => suffixes_stops (hc' ▸ hs) k e'

theorem ReadsAt.chainsAt {level : Nat} (h : ReadsAt (level + 1) e) (hp : e.precedence ≠ level) : ChainsAt level e := by
  intro inBody n c rest hc hn hs
  rw [← printAt_succ hp] at hc hn
  exact reaches_of_gives (h inBody n c rest hc hn hs)

/-- An expression that is read at its own level, and followed through its own loop, is read at every
    level: below its own as it is, above it in parentheses. -/
theorem readable_of (ho : Begins TokenKind.opensExpression e.print) (hown : ReadsAt e.precedence e)
    (hchain : e.precedence ≤ 4 → ChainsAt e.precedence e) (hsuffix : e.precedence = 6 → Suffixed e) :
    Readable e := by
  have hb := e.precedence_bounds
  have hlow : ∀ level ≤ e.precedence, ReadsAt level e := fun level hl =>
    hown.down hb.2 ho 0 (fun l _ hlt => by omega) (Nat.zero_le _) hl
  have hsuffixed : Suffixed e := by
    rcases Nat.lt_or_eq_of_le hb.2 with hlt | heq
    · exact suffixed_of_readsAt (hlow 0 (Nat.zero_le _)) hlt
    · exact hsuffix heq
  have hreads : ∀ level ≤ 6, ReadsAt level e := by
    intro level hl
    rcases Nat.lt_or_ge e.precedence level with hlt | hge
    · exact hsuffixed.readsAt.down (Nat.le_refl 6) ho (e.precedence + 1) (fun l hl _ => by omega) hlt hl
    · exact hlow level hge
  refine ⟨ho, hreads, fun level _ h₂ => ?_, hsuffixed⟩
  by_cases hp : e.precedence = level
  · subst hp
    exact hchain h₂
  · exact (hreads (level + 1) (by omega)).chainsAt hp

/-- An expression that binds tightest. -/
theorem readable_of_suffixed (ho : Begins TokenKind.opensExpression e.print) (hp : e.precedence = 6)
    (h : Suffixed e) : Readable e :=
  readable_of ho (hp ▸ h.readsAt) (fun hle => by omega) fun _ => h

end

end Grammar

end Treewalk
