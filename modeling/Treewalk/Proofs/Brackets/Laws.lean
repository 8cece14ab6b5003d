/-
  Treewalk.Proofs.Brackets.Laws — what parsing makes of brackets, for the steps all parsing is made of.

  `Keeps D L past ts r`: the parser that faced `ts` behind `past` came to `r`. If it read something, it has
  consumed tokens in brackets (`Bracketed`), so their level is as before. If it gave up because the
  input ended inside brackets, then whatever is open in front of `ts`, the brackets of `ts` do not
  level out (`Unclosable`), at least if there are no more than `L` tokens: loops stop at their bound, and
  what is skipped may be longer.

  Proved: steps over tokens that are no brackets keep this, parsers one after another do, so does what
  is read between an opening bracket and the one it is closed by (`keeps_pair`), and so do constructs
  that are skipped, which are regions (`keeps_skipStatement`, `keeps_skipObject`).
-/

import Treewalk.Proofs.Brackets
import Treewalk.Grammar.Program

namespace Treewalk

open Cursor (facing)

/-- Whether the input ended inside brackets. -/
def ParseCause.isUnclosed (cause : ParseCause) : Bool := cause matches .unclosedDelimiter _ _

namespace Grammar

/-- However many brackets are open in front of them, the tokens before the last leave some open. -/
def Unclosable (ts : List Token) : Prop := ∀ k, ¬ Nests k ts.dropLast

theorem Unclosable.cons {t : Token} {ts : List Token} (h : Unclosable ts) : Unclosable (t :: ts) := by
  intro k hk
  cases ts with
  | nil => exact h 0 .nil
  | cons u us =>
    obtain ⟨l, hl⟩ := Nests.tail hk
    exact h l hl

theorem Unclosable.append {ts : List Token} (h : Unclosable ts) (us : List Token) : Unclosable (us ++ ts) := by
  induction us with
  | nil => exact h
  | cons u us ih => exact ih.cons

section
variable {α β : Type} (D : List Token → Prop)

/-- What was read are tokens in brackets; if input ended inside brackets, with up to `L` tokens ahead,
    these leave some open. -/
def Keeps (L : Nat) (past ts : List Token) (r : Parsed (α × Cursor)) : Prop :=
  match r with
  | .ok (_, c) => ∃ used rest, ts = used ++ rest ∧ EndsOnce rest ∧ c = facing (used.reverse ++ past) rest ∧
      ∃ regions, Bracketed D past regions used rest
  | .error e => e.cause.isUnclosed = true → ts.length ≤ L → Unclosable ts

/-- The parser keeps the brackets, wherever it stands. -/
def KeepsUpTo (L : Nat) (parser : Cursor → Parsed (α × Cursor)) : Prop :=
  ∀ past ts, EndsOnce ts → Keeps D L past ts (parser (facing past ts))

/-- No brace is next, or one that begins an object literal. -/
def MayStart (past ts : List Token) : Prop := (facing past ts).kind = .punct .lbrace → D past

/-- The parser keeps the brackets wherever an operand can start. -/
def KeepsOperands (L : Nat) (parser : Cursor → Parsed (α × Cursor)) : Prop :=
  ∀ past ts, EndsOnce ts → MayStart D past ts → Keeps D L past ts (parser (facing past ts))

end

section
variable {α β : Type} {D : List Token → Prop} {past ts : List Token} {t : Token} {r : Parsed (α × Cursor)} {L M : Nat}

theorem Keeps.mono (h : Keeps D L past ts r) (hM : M ≤ L) : Keeps D M past ts r := by
  cases r with
  | error e => exact fun hcause hl => h hcause (Nat.le_trans hl hM)
  | ok x => exact h

theorem keeps_ok {a : α} (he : EndsOnce ts) : Keeps D L past ts (.ok (a, facing past ts)) :=
  ⟨[], ts, rfl, he, rfl, [], .nil⟩

theorem keeps_pure (a : α) : KeepsUpTo D L fun c => .ok (a, c) := fun _ _ => keeps_ok

theorem keeps_fail {cause : ParseCause} {span : Span} (h : cause.isUnclosed = false) :
    Keeps D L past ts (fail cause span : Parsed (α × Cursor)) := by
  intro hcause
  rw [h] at hcause
  cases hcause

theorem keeps_within {context : Context} (h : Keeps D L past ts r) : Keeps D L past ts (within context r) := by
  cases r with
  | error e => exact h
  | ok x => exact h

/-- Behind tokens in brackets. -/
theorem keeps_append {regions : List (List Token)} {used rest : List Token} (hused : Bracketed D past regions used rest)
    (h : Keeps D L (used.reverse ++ past) rest r) : Keeps D (L + used.length) past (used ++ rest) r := by
  cases r with
  | error e =>
    intro hcause hl
    rw [List.length_append] at hl
    exact (h hcause (by omega)).append used
  | ok x =>
    obtain ⟨us, rest, rfl, he, hc, regions', hus⟩ := h
    exact ⟨used ++ us, rest, by simp, he, by simp [hc], regions ++ regions', hused.append hus⟩

/-- Behind a token that stands alone, one token less is enough. -/
theorem keeps_deeper (ht : isPlain t.kind = true) (h : Keeps D L (t :: past) ts r) : Keeps D (L + 1) past (t :: ts) r :=
  keeps_append (.token ht) h

theorem keeps_step (ht : isPlain t.kind = true) (h : Keeps D L (t :: past) ts r) : Keeps D L past (t :: ts) r :=
  (keeps_deeper ht h).mono (Nat.le_succ L)

theorem keeps_bind {f : α × Cursor → Parsed (β × Cursor)} (h : Keeps D L past ts r)
    (hf : ∀ a past' rest, EndsOnce rest → Keeps D L past' rest (f (a, facing past' rest))) :
    Keeps D L past ts (r >>= f) := by
  cases r with
  | error e => exact h
  | ok x =>
    obtain ⟨a, c⟩ := x
    obtain ⟨used, rest, rfl, he, rfl, regions, hused⟩ := h
    exact (keeps_append hused (hf a _ rest he)).mono (Nat.le_add_right _ _)

/-! ## Certain tokens -/

theorem facing_cons_of_kind {k : TokenKind} (he : EndsOnce ts) (h : (facing past ts).kind = k) (hk : k ≠ .eof) :
    ∃ s us, ts = ⟨k, s⟩ :: us ∧ EndsOnce us ∧ (facing past ts).advance = facing (⟨k, s⟩ :: past) us := by
  cases ts with
  | nil => exact absurd he not_endsOnce_nil
  | cons t us =>
    subst h
    exact ⟨t.span, us, rfl, he.of_cons hk, Cursor.advance_facing hk⟩

theorem facing_check {p : Punct} (he : EndsOnce ts) (h : (facing past ts).check (.punct p) = true) :
    ∃ s us, ts = ⟨.punct p, s⟩ :: us ∧ EndsOnce us ∧ (facing past ts).advance = facing (⟨.punct p, s⟩ :: past) us :=
  facing_cons_of_kind he (Cursor.kind_of_check h) nofun

theorem facing_eats? {p : Punct} {c : Cursor} (he : EndsOnce ts) (h : (facing past ts).eats? p = some c) :
    ∃ s us, ts = ⟨.punct p, s⟩ :: us ∧ EndsOnce us ∧ c = facing (⟨.punct p, s⟩ :: past) us := by
  unfold Cursor.eats? at h
  split at h
  · rename_i hcheck
    cases h
    exact facing_check he hcheck
  · cases h

/-- A token may be there; behind it one token less is enough. -/
theorem keeps_eats {p : Punct} {f : Cursor → Parsed (α × Cursor)} (hp : isPlain (.punct p) = true) (hM : L ≤ M + 1)
    (he : EndsOnce ts) (hr : Keeps D L past ts r)
    (hf : ∀ s rest, EndsOnce rest →
      Keeps D M (⟨.punct p, s⟩ :: past) rest (f (facing (⟨.punct p, s⟩ :: past) rest))) :
    Keeps D L past ts (match (facing past ts).eats? p with | none => r | some c => f c) := by
  cases hc : (facing past ts).eats? p with
  | none => exact hr
  | some c =>
    obtain ⟨s, us, rfl, hus, rfl⟩ := facing_eats? he hc
    exact (keeps_deeper hp (hf s us hus)).mono hM

/-- A token that stands alone. -/
theorem keeps_token {k : TokenKind} {a : α} (hk : isPlain k = true) (he : EndsOnce ts) (h : (facing past ts).kind = k) :
    Keeps D L past ts (.ok (a, (facing past ts).advance)) := by
  obtain ⟨s, us, rfl, hus, hc⟩ := facing_cons_of_kind he h (ne_eof_of_isLevel (isLevel_of_isPlain hk))
  rw [hc]
  exact keeps_step hk (keeps_ok hus)

/-- A token that is consumed if it is there. -/
theorem keeps_skip {p : Punct} (hp : isPlain (.punct p) = true) {a : α} (he : EndsOnce ts) :
    Keeps D L past ts (.ok (a, (facing past ts).skip p)) := by
  unfold Cursor.skip
  cases hc : (facing past ts).eats? p with
  | none => exact keeps_ok he
  | some c =>
    obtain ⟨s, us, rfl, hus, rfl⟩ := facing_eats? he hc
    exact keeps_step hp (keeps_ok hus)

theorem keeps_expect {p : Punct} {f : Span × Cursor → Parsed (β × Cursor)} (he : EndsOnce ts)
    (hf : ∀ s us, ts = ⟨.punct p, s⟩ :: us → EndsOnce us → Keeps D L past ts (f (s, facing (⟨.punct p, s⟩ :: past) us))) :
    Keeps D L past ts (expect p (facing past ts) >>= f) := by
  unfold expect
  split
  · rename_i hcheck
    obtain ⟨s, us, rfl, hus, hc⟩ := facing_check he hcheck
    rw [hc]
    exact hf s us rfl hus
  · exact keeps_fail rfl

/-- Behind a point a name is read, or the token there is at fault. -/
theorem propertyName_cases (he : EndsOnce ts) :
    (∃ k name s us, NamesProperty k name ∧ ts = ⟨k, s⟩ :: us ∧ EndsOnce us ∧
      propertyName (facing past ts) = .ok (.ident (facing past ts).span name, facing (⟨k, s⟩ :: past) us)) ∨
    ∃ cause span, cause.isUnclosed = false ∧ propertyName (facing past ts) = fail cause span := by
  unfold propertyName
  split
  · rename_i name hk
    obtain ⟨s, us, hts, hus, hc⟩ := facing_cons_of_kind he hk nofun
    exact .inl ⟨_, name, s, us, .ident name, hts, hus, by rw [hc]⟩
  · rename_i k hk
    obtain ⟨s, us, hts, hus, hc⟩ := facing_cons_of_kind he hk nofun
    exact .inl ⟨_, _, s, us, .keyword k, hts, hus, by rw [hc]⟩
  · exact .inr ⟨_, _, rfl, rfl⟩

/-! ## Pairs of brackets -/

/-- What an opening bracket, tokens in brackets and then the end of input make. -/
theorem unclosable_pair {p : Punct} {s : Span} {used : List Token} {e : Token} (hp : p.isOpener = true)
    (hused : Nests 0 used) : Unclosable (⟨.punct p, s⟩ :: (used ++ [e])) := by
  intro k hk
  rw [← List.cons_append, List.dropLast_concat, nests_opener hp] at hk
  obtain ⟨l, hl, hnil⟩ := hused.split ((List.append_nil used).symm ▸ hk)
  cases hnil
  omega

theorem endsOnce_atEnd (he : EndsOnce ts) (h : (facing past ts).atEnd = true) : ∃ e, ts = [e] := by
  cases ts with
  | nil => exact absurd he not_endsOnce_nil
  | cons t us =>
    rcases endsOnce_cons.mp he with ⟨-, rfl⟩ | ⟨ht, -⟩
    · exact ⟨t, rfl⟩
    · exact absurd (TokenKind.tag_eq_eof.mp (beq_iff_eq.mp h)) ht

theorem mapError_within (context : Context) (r : Parsed α) : (within context r).mapError (·.cause) = r.mapError (·.cause) := by
  cases r <;> rfl

/-- Two parsers that come to the same, whatever construct their errors name. -/
theorem ok_of_mapError {r₁ r₂ : Parsed α} {a : α} (h : r₁.mapError (·.cause) = r₂.mapError (·.cause)) (h₂ : r₂ = .ok a) :
    r₁ = .ok a := by
  subst h₂
  cases r₁ with
  | error e => cases h
  | ok b =>
    cases h
    rfl

theorem error_of_mapError {r₁ r₂ : Parsed α} {e₂ : ParseError} (h : r₁.mapError (·.cause) = r₂.mapError (·.cause))
    (h₂ : r₂ = .error e₂) : ∃ e₁, r₁ = .error e₁ ∧ e₁.cause = e₂.cause := by
  subst h₂
  cases r₁ with
  | ok b => cases h
  | error e => exact ⟨e, rfl, Except.error.inj h⟩

/-- Between an opening bracket and the one it is closed by, something is read. -/
theorem keeps_pair {p q : Punct} {s : Span} (hpq : p.closer? = some q) {g : α × Cursor → Parsed (β × Cursor)}
    (close : Cursor → Parsed (Span × Cursor)) (f : α → Span × Cursor → Parsed (β × Cursor))
    (hg : ∀ a c, g (a, c) = close c >>= f a)
    (hclose : ∀ c, (close c).mapError (·.cause) = (expectClosing q p s c).mapError (·.cause))
    (h : Keeps D L (⟨.punct p, s⟩ :: past) ts r)
    (hf : ∀ a s' past' rest, EndsOnce rest → Keeps D (L + 1) past' rest (f a (s', facing past' rest))) :
    Keeps D (L + 1) past (⟨.punct p, s⟩ :: ts) (r >>= g) := by
  cases r with
  | error e => exact fun hcause hl => (h hcause (Nat.le_of_succ_le_succ hl)).cons
  | ok x =>
    obtain ⟨a, c⟩ := x
    obtain ⟨used, rest, rfl, he, rfl, regions, hused⟩ := h
    show Keeps D _ past _ (g (a, facing (used.reverse ++ ⟨.punct p, s⟩ :: past) rest))
    rw [hg]
    have hclose := hclose (facing (used.reverse ++ ⟨.punct p, s⟩ :: past) rest)
    unfold expectClosing expect at hclose
    split at hclose
    · -- The input ends here: the bracket stays open, and nothing stands behind it to close it.
      rename_i hat
      obtain ⟨e, rfl⟩ := endsOnce_atEnd he hat
      obtain ⟨e₁, he₁, -⟩ := error_of_mapError hclose rfl
      rw [he₁]
      exact fun _ _ => unclosable_pair (Punct.closer?_eq_some hpq).1 hused.nests
    · split at hclose
      · rename_i hcheck
        obtain ⟨s', us, rfl, hus, hc⟩ := facing_check he hcheck
        rw [ok_of_mapError hclose rfl, hc]
        have hrest := hf a s' ((⟨.punct p, s⟩ :: (used ++ [⟨.punct q, s'⟩])).reverse ++ past) us hus
        have hpair := (keeps_append (.pair hpq hused) hrest).mono (Nat.le_add_right (L + 1) _)
        show Keeps D _ past _ (f a (s', facing (⟨.punct q, s'⟩ :: (used.reverse ++ ⟨.punct p, s⟩ :: past)) us))
        simpa using hpair
      · obtain ⟨e₁, he₁, hcause⟩ := error_of_mapError hclose rfl
        rw [he₁]
        intro hunclosed
        rw [hcause] at hunclosed
        cases hunclosed

end

/-! ## Skipped constructs -/

/-- With `d` brackets open: what was skipped closes just these, and if skipping failed, no continuation
    of up to `L` tokens closes as many. -/
def Closes {α : Type} (L d : Nat) (past ts : List Token) (r : Parsed (α × Cursor)) : Prop :=
  match r with
  | .ok (_, c) => ∃ used rest, ts = used ++ rest ∧ EndsOnce rest ∧ c = facing (used.reverse ++ past) rest ∧ Nests d used
  | .error _ => ts.length ≤ L → ∀ k, Nests k ts.dropLast → k < d

section
variable {α : Type} {past ts : List Token} {t : Token} {r : Parsed (α × Cursor)} {L d : Nat} {p : Punct} {s : Span}

theorem dropLast_cons (he : EndsOnce ts) : (t :: ts).dropLast = t :: ts.dropLast := by
  refine List.dropLast_cons_of_ne_nil ?_
  rintro rfl
  exact not_endsOnce_nil he

/-- A token in front that changes how many brackets are open. -/
theorem closes_cons {d' : Nat} (he : EndsOnce ts) (hused : ∀ used, Nests d used → Nests d' (t :: used))
    (hrest : ∀ k us, Nests k (t :: us) → (∀ l, Nests l us → l < d) → k < d') (h : Closes L d (t :: past) ts r) :
    Closes (L + 1) d' past (t :: ts) r := by
  cases r with
  | error e =>
    intro hl k hk
    rw [dropLast_cons he] at hk
    exact hrest k _ hk (h (Nat.le_of_succ_le_succ hl))
  | ok x =>
    obtain ⟨used, rest, rfl, he, hc, hn⟩ := h
    exact ⟨t :: used, rest, rfl, he, by simp [hc], hused used hn⟩

theorem closes_opener_cons (he : EndsOnce ts) (hp : p.isOpener = true)
    (h : Closes L (d + 1) (⟨.punct p, s⟩ :: past) ts r) : Closes (L + 1) d past (⟨.punct p, s⟩ :: ts) r := by
  refine closes_cons he (fun _ => .opener hp) (fun k _ hk hlt => ?_) h
  exact Nat.lt_of_succ_lt_succ (hlt _ ((nests_opener hp).mp hk))

theorem closes_closer_cons (he : EndsOnce ts) (hp : p.isCloser = true) (h : Closes L d (⟨.punct p, s⟩ :: past) ts r) :
    Closes (L + 1) (d + 1) past (⟨.punct p, s⟩ :: ts) r := by
  refine closes_cons he (fun _ => .closer hp) (fun k _ hk hlt => ?_) h
  obtain ⟨l, rfl, hl⟩ := (nests_closer hp).mp hk
  exact Nat.succ_lt_succ (hlt l hl)

theorem closes_level_cons (he : EndsOnce ts) (ht : isLevel t.kind = true) (h : Closes L d (t :: past) ts r) :
    Closes (L + 1) d past (t :: ts) r :=
  closes_cons he (fun _ => .other ht) (fun k _ hk hlt => hlt k ((nests_level ht).mp hk)) h

theorem closes_skipped (kind : String) (start : Span) (he : EndsOnce ts) :
    Closes L 0 past ts (skipped kind start (facing past ts)) :=
  ⟨[], ts, rfl, he, rfl, .nil⟩

/-- No more than the end of input is left, with brackets open. -/
theorem closes_error {e : ParseError} (hd : 0 < d) : Closes 1 d past ts (.error e : Parsed (α × Cursor)) := by
  intro hl k hk
  have hnil : ts.dropLast = [] := List.eq_nil_of_length_eq_zero (by rw [List.length_dropLast]; omega)
  rw [hnil] at hk
  cases hk
  exact hd

theorem closes_skippedAtEnd (kind : String) (start : Span) (opened : List (Punct × Span)) (he : EndsOnce ts) :
    Closes 1 opened.length past ts (skippedAtEnd kind start opened (facing past ts)) := by
  cases opened with
  | nil => exact closes_skipped kind start he
  | cons o opened => exact closes_error (Nat.succ_pos _)

theorem closes_skipped_skip (kind : String) (start : Span) (he : EndsOnce ts) :
    Closes L 0 past ts (skipped kind start ((facing past ts).skip .semicolon)) := by
  unfold Cursor.skip
  cases hc : (facing past ts).eats? .semicolon with
  | none => exact closes_skipped kind start he
  | some c =>
    obtain ⟨s, us, rfl, hus, rfl⟩ := facing_eats? he hc
    exact ⟨[⟨.punct .semicolon, s⟩], us, rfl, hus, rfl, nests_token rfl⟩

/-- A list is at its end, or begins with a token that is not the end of input. -/
theorem endsOnce_cases (he : EndsOnce ts) :
    (∃ t, ts = [t] ∧ t.kind = .eof) ∨ ∃ t us, ts = t :: us ∧ t.kind ≠ .eof ∧ EndsOnce us := by
  cases ts with
  | nil => exact absurd he not_endsOnce_nil
  | cons t us =>
    rcases endsOnce_cons.mp he with ⟨ht, rfl⟩ | ⟨ht, hus⟩
    · exact .inl ⟨t, rfl, ht⟩
    · exact .inr ⟨t, us, rfl, ht, hus⟩

/-- At the end of input it makes no difference how far the bound is. -/
theorem Closes.atEnd (h : Closes 1 d past [t] r) : Closes L d past [t] r := by
  cases r with
  | error e => exact fun _ => h (Nat.le_refl 1)
  | ok x => exact h

/-- A token that is no bracket is passed, or it is the semicolon that ends the statement. -/
theorem skipFrom_level (kind : String) (start : Span) (n : Nat) (opened : List (Punct × Span))
    (ht : isLevel t.kind = true) :
    skipFrom kind start (n + 1) opened (facing past (t :: ts)) = skipFrom kind start n opened (facing (t :: past) ts) ∨
      opened = [] ∧
        skipFrom kind start (n + 1) opened (facing past (t :: ts)) = skipped kind start (facing (t :: past) ts) := by
  have heof : t.kind ≠ .eof := ne_eof_of_isLevel ht
  obtain ⟨k, s⟩ := t
  cases k with
  | punct p =>
    obtain ⟨ho, hc⟩ : p.isOpener = false ∧ p.isCloser = false := by simpa [isLevel] using ht
    simp only [skipFrom, Cursor.kind_facing, ho, hc, Bool.false_eq_true, if_false, Cursor.advance_facing heof]
    split
    · rename_i hends
      simp only [Bool.and_eq_true, List.isEmpty_iff] at hends
      exact .inr ⟨hends.1.2, rfl⟩
    · exact .inl rfl
  | eof => cases ht
  | _ =>
    left
    rw [skipFrom, Cursor.kind_facing, Cursor.advance_facing heof]

/-- By induction on the bound, a token at a time. -/
theorem closes_skipFrom (kind : String) (start : Span) (n : Nat) (opened : List (Punct × Span)) (he : EndsOnce ts) :
    Closes (n + 1) opened.length past ts (skipFrom kind start n opened (facing past ts)) := by
  induction n generalizing opened past ts with
  | zero => exact closes_skippedAtEnd kind start opened he
  | succ n ih =>
    obtain ⟨t, rfl, ht⟩ | ⟨t, us, rfl, ht, hus⟩ := endsOnce_cases he
    · simp only [skipFrom, Cursor.kind_facing, ht]
      exact (closes_skippedAtEnd kind start opened he).atEnd
    obtain ⟨p, s, rfl, hp⟩ | ⟨p, s, rfl, hp⟩ | hlevel := level_cases ht
    · simp only [skipFrom, Cursor.kind_facing, hp, if_true, Cursor.advance_facing ht]
      exact closes_opener_cons hus hp (ih ((p, _) :: opened) hus)
    · simp only [skipFrom, Cursor.kind_facing, hp, if_true, Punct.isOpener_of_isCloser hp, Bool.false_eq_true, if_false,
        Cursor.advance_facing ht]
      cases opened with
      | nil => exact closes_skipped kind start he
      | cons o opened =>
        -- Whichever bracket `o` is, it counts as closed.
        refine closes_closer_cons hus hp ?_
        dsimp only
        split
        · rename_i hends
          simp only [Bool.and_eq_true, List.isEmpty_iff] at hends
          obtain rfl := hends.1.1
          exact closes_skipped_skip kind start hus
        · exact ih opened hus
    · refine closes_level_cons hus hlevel ?_
      rcases skipFrom_level kind start n opened hlevel with h | ⟨rfl, h⟩ <;> rw [h]
      · exact ih opened hus
      · exact closes_skipped kind start hus

theorem skipObjectFrom_level (start : Span) (n depth : Nat) (ht : isLevel t.kind = true) :
    skipObjectFrom start (n + 1) depth (facing past (t :: ts)) = skipObjectFrom start n depth (facing (t :: past) ts) := by
  have heof : t.kind ≠ .eof := ne_eof_of_isLevel ht
  obtain ⟨k, s⟩ := t
  cases k with
  | punct p =>
    obtain ⟨ho, hc⟩ : p.isOpener = false ∧ p.isCloser = false := by simpa [isLevel] using ht
    simp only [skipObjectFrom, Cursor.kind_facing, ho, hc, Bool.false_eq_true, if_false, Cursor.advance_facing heof]
  | eof => cases ht
  | _ => rw [skipObjectFrom, Cursor.kind_facing, Cursor.advance_facing heof]

theorem closes_skipObjectFrom (start : Span) (n d : Nat) (he : EndsOnce ts) :
    Closes (n + 1) (d + 1) past ts (skipObjectFrom start n (d + 1) (facing past ts)) := by
  induction n generalizing d past ts with
  | zero => exact closes_error (Nat.succ_pos d)
  | succ n ih =>
    obtain ⟨t, rfl, ht⟩ | ⟨t, us, rfl, ht, hus⟩ := endsOnce_cases he
    · simp only [skipObjectFrom, Cursor.kind_facing, ht]
      exact (closes_error (Nat.succ_pos d)).atEnd
    obtain ⟨p, s, rfl, hp⟩ | ⟨p, s, rfl, hp⟩ | hlevel := level_cases ht
    · simp only [skipObjectFrom, Cursor.kind_facing, hp, if_true, Cursor.advance_facing ht]
      exact closes_opener_cons hus hp (ih (d + 1) hus)
    · simp only [skipObjectFrom, Cursor.kind_facing, hp, if_true, Punct.isOpener_of_isCloser hp, Bool.false_eq_true,
        if_false, Cursor.advance_facing ht]
      refine closes_closer_cons hus hp ?_
      cases d with
      | zero => exact closes_skipped _ start hus
      | succ d => exact ih d hus
    · rw [skipObjectFrom_level start n (d + 1) hlevel]
      exact closes_level_cons hus hlevel (ih d hus)

theorem closes_skipObject (n : Nat) (he : EndsOnce ts) :
    Closes (n + 1) 0 past (⟨.punct .lbrace, s⟩ :: ts) (skipObject n (facing past (⟨.punct .lbrace, s⟩ :: ts))) := by
  cases n with
  | zero =>
    intro hl
    obtain rfl := List.eq_nil_of_length_eq_zero (Nat.le_zero.mp (Nat.le_of_succ_le_succ hl))
    exact absurd he not_endsOnce_nil
  | succ n =>
    simp only [skipObject, skipObjectFrom, Cursor.kind_facing, Punct.isOpener, if_true,
      Cursor.advance_facing (t := ⟨.punct .lbrace, s⟩) nofun]
    exact closes_opener_cons he rfl (closes_skipObjectFrom s n 0 he)

/-- What is skipped, if anything, is a region. -/
theorem keeps_of_closes {D : List Token → Prop} {r : Parsed (Node × Cursor)} (h : Closes L 0 past ts r)
    (hregion : ∀ node used rest, ts = used ++ rest → used ≠ [] → r = .ok (node, facing (used.reverse ++ past) rest) →
      SkippedAt D past used rest) : Keeps D L past ts r := by
  cases r with
  | error e => exact fun _ hl k hk => absurd (h hl k hk) (Nat.not_lt_zero k)
  | ok x =>
    obtain ⟨used, rest, hts, he, hc, hused⟩ := h
    refine ⟨used, rest, hts, he, hc, ?_⟩
    by_cases hnil : used = []
    · subst hnil
      exact ⟨[], .nil⟩
    · exact ⟨[used], .region (hregion x.1 used rest hts hnil (by rw [← hc])) hused⟩

theorem keeps_skipStatement {D : List Token → Prop} {word : Keyword} {kind : String} (hword : skippedKind? word = some kind)
    (n : Nat) (he : EndsOnce ts) :
    Keeps D (n + 1) past (⟨.keyword word, s⟩ :: ts) (skipStatement kind n (facing past (⟨.keyword word, s⟩ :: ts))) := by
  have hall : EndsOnce (⟨.keyword word, s⟩ :: ts) := endsOnce_cons.mpr (.inr ⟨nofun, he⟩)
  refine keeps_of_closes (closes_skipFrom kind _ n [] hall) fun node used rest hts hne hread => ?_
  obtain ⟨t, us, rfl⟩ := List.exists_cons_of_ne_nil hne
  obtain ⟨rfl, -⟩ := List.cons.inj hts
  exact .statement rfl hword (hts ▸ hread)

theorem keeps_skipObject {D : List Token → Prop} (hD : D past) (n : Nat) (he : EndsOnce ts) :
    Keeps D (n + 1) past (⟨.punct .lbrace, s⟩ :: ts) (skipObject n (facing past (⟨.punct .lbrace, s⟩ :: ts))) := by
  refine keeps_of_closes (closes_skipObject n he) fun node used rest hts hne hread => ?_
  obtain ⟨t, us, rfl⟩ := List.exists_cons_of_ne_nil hne
  obtain ⟨rfl, -⟩ := List.cons.inj hts
  exact .object rfl hD (hts ▸ hread)

end

end Grammar

end Treewalk
