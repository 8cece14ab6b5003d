/-
  Treewalk.Proofs.Prediction — how a parser runs on tokens it has not seen the end of.

  A parser goes by the tokens up to the one it stops at, and by nothing behind that one. On a list it
  either accepts some tokens in front of a token where it stops, or it rejects at a token; `Takes` says
  that either happens on every list that begins with these tokens. A rejection at a token that is not
  the first comes with a completion (`Completes`): the tokens before it can be carried on so that the
  parser accepts. What may stand behind a completion is part of the parser's `Contract`, and so is what
  may stand in front of a parser that is begun just to finish it: of two parsers in sequence, the exit
  of the first is the entry of the second.

  `Settles` puts this together for all lists up to a length. A parser is a family over its bound, and
  `size` is how long a list a bound is good for.

  Proved: the rules for the steps parsing is made of (`Settles.bind`, `RunsAt.cons`, `Settles.branch`).
-/

import Mathlib.Data.Set.Lattice
import Mathlib.Order.CompletePartialOrder
import Treewalk.Grammar.Basic
import Treewalk.Proofs.Ahead

namespace Treewalk

/-- The error points at this token and says what it is. -/
def ParseError.PointsAt (e : ParseError) (t : Token) : Prop :=
  e.span = t.span ∧
    match e.cause with
    | .unexpectedToken _ found | .expectedExpression found | .expectedIdentifier found => found = t.tag
    | .unclosedDelimiter _ _ => t.kind = .eof
    | .returnOutsideFunction => t.kind = .keyword .returnKw

namespace Grammar

open Cursor (facing)

/-- A parser for each bound. -/
abbrev Bounded (α : Type) := Nat → Cursor → Parsed (α × Cursor)

structure Contract (α : Type) where
  /-- What a completion may begin with. -/
  entry : Set TokenKind
  /-- What may stand behind a completion. -/
  exit : Set TokenKind
  result : List Token → α → Prop

/-- What is finished in front of some token cannot have been begun there. -/
def Contract.Strict {α : Type} (K : Contract α) : Prop := ¬ K.exit ⊆ K.entry

section
variable {α : Type} (size : Nat → Nat) (past : List Token) (R : Bounded α) (K : Contract α)

/-- On every list that goes on with `used` and `next`, the parser consumes `used` and ends as `r`. -/
def Takes (used : List Token) (next : Token) (r : Parsed α) : Prop :=
  ∀ n rest, (used ++ next :: rest).length ≤ size n →
    R n (facing past (used ++ next :: rest)) = r.map fun a => (a, facing (used.reverse ++ past) (next :: rest))

structure Accepts (used : List Token) (next : Token) (a : α) : Prop where
  result : K.result used a
  idle : used = [] → K.exit ⊆ K.entry
  takes : ∀ t, t = next ∨ t.kind ∈ K.exit → Takes size past R used t (.ok a)

/-- The tokens can be carried on so that the parser accepts. -/
def Completes (used : List Token) : Prop :=
  ∃ ext a, K.result (used ++ ext) a ∧ ∀ t, t.kind ∈ K.exit → Takes size past R (used ++ ext) t (.ok a)

structure Rejects (used : List Token) (next : Token) (e : ParseError) : Prop where
  points : e.PointsAt next
  takes : Takes size past R used next (.error e)
  completes : used ≠ [] → Completes size past R K used

def RunsOn (ts : List Token) : Prop :=
  ∃ used next rest, ts = used ++ next :: rest ∧
    ((∃ a, Accepts size past R K used next a) ∨ ∃ e, Rejects size past R K used next e)

/-- On lists of at most `L` tokens that begin with this one. -/
def RunsAt (L : Nat) (t : Token) : Prop :=
  ∀ rest, EndsOnce (t :: rest) → (t :: rest).length ≤ L → RunsOn size past R K (t :: rest)

/-- The parser accepts some tokens in front of whatever may stand behind them. -/
def Finishes : Prop :=
  ∃ ext a, K.result ext a ∧
    ∀ t, t.kind ∈ K.exit → (ext.headD t).kind ∈ K.entry ∧ Takes size past R ext t (.ok a)

structure Settles (L : Nat) : Prop where
  runs : ∀ t, RunsAt size past R K L t
  finishes : 0 < L → Finishes size past R K

end

/-! ## Lists behind their first tokens -/

theorem append_cons_eq (used : List Token) (next : Token) (rest : List Token) :
    used ++ next :: rest = used.headD next :: (used ++ next :: rest).tail := by
  cases used <;> rfl

theorem pos_of_length_le {used rest : List Token} {next : Token} {m : Nat} (h : (used ++ next :: rest).length ≤ m) :
    0 < m := by
  simp only [List.length_append, List.length_cons] at h
  omega

theorem headD_append (us vs : List Token) (t : Token) : (us ++ vs).headD t = us.headD (vs.headD t) := by
  cases us <;> rfl

/-! ## Demands of one parser kept by another -/

section
variable {α : Type} {size size' : Nat → Nat} {past : List Token} {R R' : Bounded α} {K K' : Contract α}
  {L L' : Nat}

theorem Completes.lift {used : List Token} (h : Completes size' past R' K used)
    (hT : ∀ us t (a : α), Takes size' past R' us t (.ok a) → Takes size past R us t (.ok a)) :
    Completes size past R K used := by
  obtain ⟨ext, a, ha, htakes⟩ := h
  exact ⟨ext, a, ha, fun t ht => hT _ _ _ (htakes t ht)⟩

theorem mapError_id (r : Parsed α) : r.mapError id = r := by cases r <;> rfl

/-- A parser that consumes what another consumes, and points where that one points, runs as that one
    does. -/
theorem RunsAt.lift {t : Token} (g : ParseError → ParseError) (hg : ∀ e t, e.PointsAt t → (g e).PointsAt t)
    (hT : ∀ used next (r : Parsed α), Takes size' past R' used next r → Takes size past R used next (r.mapError g))
    (h : RunsAt size' past R' K L t) : RunsAt size past R K L t := by
  have hok : ∀ us t (a : α), Takes size' past R' us t (.ok a) → Takes size past R us t (.ok a) :=
    fun us t a ha => hT us t _ ha
  intro rest hend hlen
  obtain ⟨used, next, rest, hts, ⟨a, ha⟩ | ⟨e, he⟩⟩ := h rest hend hlen
  · exact ⟨used, next, rest, hts, .inl ⟨a, ha.result, ha.idle, fun u hu => hok _ _ _ (ha.takes u hu)⟩⟩
  · exact ⟨used, next, rest, hts, .inr ⟨g e, hg _ _ he.points, hT _ _ _ he.takes,
      fun hne => (he.completes hne).lift hok⟩⟩

theorem Settles.lift (g : ParseError → ParseError) (hg : ∀ e t, e.PointsAt t → (g e).PointsAt t)
    (hT : ∀ used next (r : Parsed α), Takes size' past R' used next r → Takes size past R used next (r.mapError g))
    (h : Settles size' past R' K L) : Settles size past R K L := by
  refine ⟨fun t => (h.runs t).lift g hg hT, fun hpos => ?_⟩
  obtain ⟨ext, a, ha, hfin⟩ := h.finishes hpos
  exact ⟨ext, a, ha, fun t ht => ⟨(hfin t ht).1, hT _ _ (.ok a) (hfin t ht).2⟩⟩

theorem Takes.reindex {used : List Token} {next : Token} {r : Parsed α} (f : Nat → Nat)
    (h : Takes size' past R' used next r) (hsize : ∀ n, size n ≤ size' (f n))
    (hR : ∀ n c, 0 < size n → R n c = R' (f n) c) : Takes size past R used next r := by
  intro n rest hlen
  rw [hR n _ (pos_of_length_le hlen), h (f n) rest (hlen.trans (hsize n))]

/-- A bound that is good for a list may stand for one that makes the same parser. -/
theorem Settles.reindex (f : Nat → Nat) (h : Settles size' past R' K L) (hsize : ∀ n, size n ≤ size' (f n))
    (hR : ∀ n c, 0 < size n → R n c = R' (f n) c) : Settles size past R K L := by
  refine h.lift id (fun _ _ hp => hp) fun used next r htakes => ?_
  rw [mapError_id]
  exact htakes.reindex f hsize hR

theorem Takes.within {context : Context} {used : List Token} {next : Token} {r : Parsed α}
    (h : Takes size past R used next r) :
    Takes size past (fun n c => Grammar.within context (R n c)) used next (r.mapError (·.inContext context)) := by
  intro n rest hlen
  show Grammar.within context (R n (facing past (used ++ next :: rest))) = _
  rw [h n rest hlen]
  cases r <;> rfl

theorem RunsAt.within {context : Context} {t : Token} (h : RunsAt size past R K L t) :
    RunsAt size past (fun n c => Grammar.within context (R n c)) K L t :=
  h.lift (·.inContext context) (fun _ _ hp => hp) fun _ _ _ htakes => htakes.within

theorem Settles.within {context : Context} (h : Settles size past R K L) :
    Settles size past (fun n c => Grammar.within context (R n c)) K L :=
  h.lift (·.inContext context) (fun _ _ hp => hp) fun _ _ _ htakes => htakes.within

theorem RunsAt.resize {t : Token} (h : RunsAt size' past R K L t) (hsize : ∀ n, size n ≤ size' n) :
    RunsAt size past R K L t := by
  refine h.lift id (fun _ _ hp => hp) fun used next r htakes => ?_
  rw [mapError_id]
  exact htakes.reindex id hsize fun _ _ _ => rfl

theorem Settles.resize (h : Settles size' past R K L) (hsize : ∀ n, size n ≤ size' n) : Settles size past R K L :=
  h.reindex id hsize fun _ _ _ => rfl

theorem RunsAt.shorten {t : Token} (h : RunsAt size past R K L t) (hL : L' ≤ L) : RunsAt size past R K L' t :=
  fun rest hend hlen => h rest hend (hlen.trans hL)

theorem Settles.shorten (h : Settles size past R K L) (hL : L' ≤ L) : Settles size past R K L' :=
  ⟨fun t => (h.runs t).shorten hL, fun hpos => h.finishes (Nat.lt_of_lt_of_le hpos hL)⟩

/-- Behind a token. -/
theorem Settles.less (h : Settles size past R K (L + 1)) : Settles (fun n => size n - 1) past R K L :=
  (h.shorten (Nat.le_succ L)).resize fun n => Nat.sub_le (size n) 1

/-- A parser may be begun where more is allowed in front of it, and finished where less is allowed
    behind it. -/
theorem Settles.weaken (h : Settles size past R K L) (hentry : K.entry ⊆ K'.entry) (hexit : K'.exit ⊆ K.exit)
    (hresult : ∀ used a, K.result used a → K'.result used a) : Settles size past R K' L := by
  refine ⟨?_, ?_⟩
  · intro t rest hend hlen
    obtain ⟨used, next, rest, hts, ⟨a, ha⟩ | ⟨e, he⟩⟩ := h.runs t rest hend hlen
    · refine ⟨used, next, rest, hts, .inl ⟨a, hresult _ _ ha.result, ?_, ?_⟩⟩
      · exact fun hnil => hexit.trans ((ha.idle hnil).trans hentry)
      · exact fun u hu => ha.takes u (hu.imp_right fun hu => hexit hu)
    · refine ⟨used, next, rest, hts, .inr ⟨e, he.points, he.takes, fun hne => ?_⟩⟩
      obtain ⟨ext, a, ha, htakes⟩ := he.completes hne
      exact ⟨ext, a, hresult _ _ ha, fun u hu => htakes u (hexit hu)⟩
  · intro hpos
    obtain ⟨ext, a, ha, hfin⟩ := h.finishes hpos
    exact ⟨ext, a, hresult _ _ ha, fun u hu => ⟨hentry (hfin u (hexit hu)).1, (hfin u (hexit hu)).2⟩⟩

/-- Less is allowed behind the parser. -/
theorem Settles.before {E X Y : Set TokenKind} {result : List Token → α → Prop}
    (h : Settles size past R ⟨E, Y, result⟩ L) (hX : X ⊆ Y) : Settles size past R ⟨E, X, result⟩ L :=
  h.weaken (fun _ hk => hk) hX fun _ _ ha => ha

/-- There are no lists of no tokens. -/
theorem settles_zero : Settles size past R K 0 :=
  ⟨fun _ _ _ hlen => absurd hlen (by simp), fun h => absurd h (Nat.lt_irrefl 0)⟩

/-- Nothing is consumed. The value may tell where the token consumed last stands. -/
theorem settles_pure {E X : Set TokenKind} {result : List Token → α → Prop} (v : Span → α)
    (hresult : result [] (v (endOf past.reverse))) (hX : X ⊆ E) :
    Settles size past (fun _ c => .ok (v c.previousSpan, c)) ⟨E, X, result⟩ L := by
  have htakes : ∀ t, Takes size past (fun _ c => .ok (v c.previousSpan, c)) [] t (.ok (v (endOf past.reverse))) := by
    intro t n rest hlen
    simp only [List.nil_append, previousSpan_facing]
    rfl
  refine ⟨?_, ?_⟩
  · intro t rest hend hlen
    exact ⟨[], t, rest, rfl, .inl ⟨_, hresult, fun _ => hX, fun t _ => htakes t⟩⟩
  · intro hpos
    exact ⟨[], _, hresult, fun t ht => ⟨hX ht, htakes t⟩⟩

theorem settles_ok {E X : Set TokenKind} {result : List Token → α → Prop} (a : α) (hresult : result [] a)
    (hX : X ⊆ E) : Settles size past (fun _ c => .ok (a, c)) ⟨E, X, result⟩ L :=
  settles_pure (fun _ => a) hresult hX

/-! ## The first token -/

variable {t : Token}

theorem RunsAt.reject {e : ParseError} (hpoints : e.PointsAt t)
    (hR : ∀ n c, c.current = t → 0 < size n → R n c = .error e) : RunsAt size past R K L t := by
  intro rest hend hlen
  refine ⟨[], t, rest, rfl, .inr ⟨e, hpoints, ?_, fun hne => absurd rfl hne⟩⟩
  intro n rest hlen
  exact hR n _ rfl (pos_of_length_le hlen)

theorem Takes.cons {used : List Token} {next : Token} {r : Parsed α}
    (hR : ∀ n c c', c.current = t → c.advance = c' → 1 < size n → R n c = R' n c') (hk : t.kind ≠ .eof)
    (h : Takes (fun n => size n - 1) (t :: past) R' used next r) : Takes size past R (t :: used) next r := by
  intro n rest hlen
  simp only [List.cons_append, List.length_cons] at hlen
  have hlen' : (used ++ next :: rest).length ≤ size n - 1 := by omega
  have hone : 1 < size n := by
    have := pos_of_length_le hlen'
    omega
  rw [List.cons_append, hR n _ _ rfl (Cursor.advance_facing hk) hone, h n rest hlen']
  simp

/-- The first token is consumed whatever stands behind it. -/
theorem RunsAt.cons (hk : t.kind ≠ .eof)
    (hR : ∀ n c c', c.current = t → c.advance = c' → 1 < size n → R n c = R' n c')
    {E : Set TokenKind} (h : Settles (fun n => size n - 1) (t :: past) R' ⟨E, K.exit, fun us a => K.result (t :: us) a⟩ L) :
    RunsAt size past R K (L + 1) t := by
  intro rest hend hlen
  have hrest := hend.of_cons hk
  simp only [List.length_cons, Nat.add_le_add_iff_right] at hlen
  cases rest with
  | nil => exact absurd hrest not_endsOnce_nil
  | cons u rest =>
    obtain ⟨used, next, rest', hts, ⟨a, ha⟩ | ⟨e, he⟩⟩ := h.runs u rest hrest hlen
    · refine ⟨t :: used, next, rest', by rw [hts]; rfl, .inl ⟨a, ha.result, ?_, ?_⟩⟩
      · simp
      · exact fun v hv => (ha.takes v hv).cons hR hk
    · refine ⟨t :: used, next, rest', by rw [hts]; rfl, .inr ⟨e, he.points, he.takes.cons hR hk, fun _ => ?_⟩⟩
      by_cases hused : used = []
      · subst hused
        obtain ⟨ext, a, ha, hfin⟩ := h.finishes (Nat.lt_of_lt_of_le (by simp) hlen)
        exact ⟨ext, a, ha, fun v hv => (hfin v hv).2.cons hR hk⟩
      · obtain ⟨ext, a, ha, htakes⟩ := he.completes hused
        exact ⟨ext, a, ha, fun v hv => (htakes v hv).cons hR hk⟩

theorem Takes.congr {used : List Token} {next : Token} {r : Parsed α} (h : Takes size past R' used next r)
    (hR : ∀ n c, c.current = used.headD next → 0 < size n → R n c = R' n c) : Takes size past R used next r := by
  intro n rest hlen
  have heq := h n rest hlen
  rw [append_cons_eq] at heq ⊢
  rw [hR n _ rfl (pos_of_length_le hlen), heq]

/-- A parser that is another one where the first token satisfies `D`. If nothing may be consumed, this
    includes the tokens that may stand behind. -/
theorem RunsAt.congr (D : Token → Prop) (ht : D t) (h : RunsAt size past R' K L t)
    (hexit : K.Strict ∨ ∀ u : Token, u.kind ∈ K.exit → D u)
    (hR : ∀ n c, D c.current → 0 < size n → R n c = R' n c) : RunsAt size past R K L t := by
  intro rest hend hlen
  have htakes : ∀ us u (r : Parsed α), D (us.headD u) → Takes size past R' us u r → Takes size past R us u r :=
    fun us u r hD hus => hus.congr fun n c hc hpos => hR n c (hc ▸ hD) hpos
  obtain ⟨used, next, rest', hts, ⟨a, ha⟩ | ⟨e, he⟩⟩ := h rest hend hlen
  · refine ⟨used, next, rest', hts, .inl ⟨a, ha.result, ha.idle, fun u hu => htakes _ _ _ ?_ (ha.takes u hu)⟩⟩
    cases used with
    | nil =>
      obtain rfl : t = next := (List.cons.inj hts).1
      rcases hexit with hK | hexit
      · exact absurd (ha.idle rfl) hK
      · exact hu.elim (fun hu => hu ▸ ht) (hexit u)
    | cons v us => exact (List.cons.inj hts).1 ▸ ht
  · have hhead : used.headD next = t := by
      rw [append_cons_eq] at hts
      exact (List.cons.inj hts).1.symm
    refine ⟨used, next, rest', hts, .inr ⟨e, he.points, htakes _ _ _ (hhead ▸ ht) he.takes, fun hne => ?_⟩⟩
    obtain ⟨ext, a, ha, hext⟩ := he.completes hne
    refine ⟨ext, a, ha, fun u hu => htakes _ _ _ ?_ (hext u hu)⟩
    cases used with
    | nil => exact absurd rfl hne
    | cons v us => exact hhead ▸ ht

/-- It does not matter how a strict parser may be begun to be finished. -/
theorem RunsAt.enter (h : RunsAt size past R K L t) (hK : K.Strict) {E : Set TokenKind} :
    RunsAt size past R ⟨E, K.exit, K.result⟩ L t := by
  intro rest hend hlen
  obtain ⟨used, next, rest', hts, ⟨a, ha⟩ | ⟨e, he⟩⟩ := h rest hend hlen
  · exact ⟨used, next, rest', hts, .inl ⟨a, ha.result, fun hnil => absurd (ha.idle hnil) hK, ha.takes⟩⟩
  · exact ⟨used, next, rest', hts, .inr ⟨e, he.points, he.takes, he.completes⟩⟩

/-- What becomes of the tokens in `C` is settled by itself; in front of all others the parser is
    another one. -/
theorem Settles.branch {S : Bounded α} (C : Set TokenKind) (hC : ∀ t, t.kind ∈ C → RunsAt size past R K L t)
    (hS : Settles size past S K L) (hentry : Disjoint C K.entry) (hexit : Disjoint C K.exit)
    (hR : ∀ n c, c.kind ∉ C → 0 < size n → R n c = S n c) : Settles size past R K L := by
  refine ⟨?_, ?_⟩
  · intro t
    by_cases ht : t.kind ∈ C
    · exact hC t ht
    · exact (hS.runs t).congr (·.kind ∉ C) ht (.inr fun u hu => Set.disjoint_right.mp hexit hu) hR
  · intro hpos
    obtain ⟨ext, a, ha, hfin⟩ := hS.finishes hpos
    refine ⟨ext, a, ha, fun u hu => ⟨(hfin u hu).1, (hfin u hu).2.congr fun n c hc hpos => hR n c ?_ hpos⟩⟩
    rw [Cursor.kind, hc]
    exact Set.disjoint_right.mp hentry (hfin u hu).1

end

/-! ## One parser behind another -/

section
variable {α β : Type} {size size₂ : Nat → Nat} {past : List Token} {P : Bounded α}
  {f : Nat → α × Cursor → Parsed (β × Cursor)} {K : Contract α} {X : Set TokenKind}
  {result : List Token → β → Prop} {L L₂ d : Nat}

theorem Takes.bind {used₁ used₂ : List Token} {next : Token} {a : α} {r : Parsed β}
    (h₁ : Takes size past P used₁ (used₂.headD next) (.ok a))
    (h₂ : Takes size₂ (used₁.reverse ++ past) (fun n c => f n (a, c)) used₂ next r)
    (hsize : ∀ n, size n ≤ size₂ n + d) (hd : d ≤ used₁.length) :
    Takes size past (fun n c => P n c >>= f n) (used₁ ++ used₂) next r := by
  intro n rest hlen
  rw [List.append_assoc] at hlen
  have hlen₂ : (used₂ ++ next :: rest).length ≤ size₂ n := by
    have := hsize n
    rw [List.length_append] at hlen
    omega
  have hP : P n (facing past (used₁ ++ (used₂ ++ next :: rest))) =
      .ok (a, facing (used₁.reverse ++ past) (used₂ ++ next :: rest)) := by
    rw [append_cons_eq used₂] at hlen ⊢
    exact h₁ n _ hlen
  show P n (facing past (used₁ ++ used₂ ++ next :: rest)) >>= f n = _
  rw [List.append_assoc, hP]
  have hf := h₂ n rest hlen₂
  rw [List.reverse_append, List.append_assoc]
  exact hf

theorem Takes.bind_error {used : List Token} {next : Token} {e : ParseError}
    (h : Takes size past P used next (.error e)) :
    Takes size past (fun n c => P n c >>= f n) used next (.error e : Parsed β) := by
  intro n rest hlen
  show P n (facing past (used ++ next :: rest)) >>= f n = _
  rw [h n rest hlen]
  rfl

/-- The second parser goes on behind what the first has consumed: it is finished in front of what may
    stand behind both, and begun in front of what may stand behind the first. Where the first consumes
    a token for certain, a bound and lists smaller by one will do for the second. -/
theorem RunsAt.bind_of {t : Token} (hP : RunsAt size past P K L t)
    (hf : ∀ used a, K.result used a → Settles size₂ (used.reverse ++ past) (fun n c => f n (a, c))
      ⟨K.exit, X, fun us b => result (used ++ us) b⟩ L₂)
    (hd : d ≤ 1) (hused : ∀ used : List Token, (used = [] → K.exit ⊆ K.entry) → d ≤ used.length)
    (hsize : ∀ n, size n ≤ size₂ n + d) (hL : L ≤ L₂ + d) :
    RunsAt size past (fun n c => P n c >>= f n) ⟨K.entry, X, result⟩ L t := by
  intro rest hend hlen
  obtain ⟨used₁, next₁, rest₁, hts, ⟨a, ha⟩ | ⟨e, he⟩⟩ := hP rest hend hlen
  · have hmin := hused used₁ ha.idle
    have hlen₂ : (next₁ :: rest₁).length ≤ L₂ := by
      rw [hts, List.length_append] at hlen
      omega
    obtain ⟨used₂, next, rest₂, hts₂, hend₂⟩ :=
      (hf used₁ a ha.result).runs next₁ rest₁ (endsOnce_append.mp (hts ▸ hend)).2 hlen₂
    have hsplit : t :: rest = used₁ ++ used₂ ++ next :: rest₂ := by rw [hts, hts₂, List.append_assoc]
    have hhead : used₂.headD next = next₁ := by
      rw [append_cons_eq used₂] at hts₂
      exact (List.cons.inj hts₂).1.symm
    rcases hend₂ with ⟨b, hb⟩ | ⟨e, he⟩
    · refine ⟨used₁ ++ used₂, next, rest₂, hsplit, .inl ⟨b, hb.result, ?_, ?_⟩⟩
      · intro hnil
        obtain ⟨rfl, rfl⟩ := List.append_eq_nil_iff.mp hnil
        exact (hb.idle rfl).trans (ha.idle rfl)
      · intro u hu
        refine Takes.bind (ha.takes _ ?_) (hb.takes u hu) hsize hmin
        cases used₂ with
        | nil =>
          rcases hu with rfl | hu
          · exact .inl hhead
          · exact .inr (hb.idle rfl hu)
        | cons v us => exact .inl hhead
    · refine ⟨used₁ ++ used₂, next, rest₂, hsplit, .inr ⟨e, he.points, ?_, fun hne => ?_⟩⟩
      · exact Takes.bind (ha.takes _ (.inl hhead)) he.takes hsize hmin
      · by_cases hnil : used₂ = []
        · obtain ⟨ext, b, hb, hfin⟩ := (hf used₁ a ha.result).finishes (Nat.lt_of_lt_of_le (by simp) hlen₂)
          subst hnil
          rw [List.append_nil]
          exact ⟨ext, b, hb, fun u hu => Takes.bind (ha.takes _ (.inr (hfin u hu).1)) (hfin u hu).2 hsize hmin⟩
        · obtain ⟨ext, b, hb, htakes⟩ := he.completes hnil
          refine ⟨ext, b, by rwa [List.append_assoc], fun u hu => ?_⟩
          rw [List.append_assoc]
          refine Takes.bind (ha.takes _ (.inl ?_)) (htakes u hu) hsize hmin
          cases used₂ with
          | nil => exact absurd rfl hnil
          | cons v us => exact hhead
  · refine ⟨used₁, next₁, rest₁, hts, .inr ⟨e, he.points, he.takes.bind_error, fun hne => ?_⟩⟩
    have hpos := List.length_pos_iff.mpr hne
    have hL₂ : 0 < L₂ := by
      rw [hts, List.length_append, List.length_cons] at hlen
      omega
    obtain ⟨ext, a, ha, htakes⟩ := he.completes hne
    obtain ⟨ext₂, b, hb, hfin⟩ := (hf (used₁ ++ ext) a ha).finishes hL₂
    refine ⟨ext ++ ext₂, b, by rwa [← List.append_assoc], fun u hu => ?_⟩
    rw [← List.append_assoc]
    refine Takes.bind (htakes _ (hfin u hu).1) (hfin u hu).2 hsize ?_
    rw [List.length_append]
    omega

theorem RunsAt.bind {t : Token} (hP : RunsAt size past P K L t)
    (hf : ∀ used a, K.result used a → Settles size (used.reverse ++ past) (fun n c => f n (a, c))
      ⟨K.exit, X, fun us b => result (used ++ us) b⟩ L) :
    RunsAt size past (fun n c => P n c >>= f n) ⟨K.entry, X, result⟩ L t :=
  hP.bind_of hf (Nat.zero_le 1) (fun _ _ => Nat.zero_le _) (fun _ => Nat.le_refl _) (Nat.le_refl L)

theorem Contract.Strict.length_pos (hK : K.Strict) (used : List Token) (h : used = [] → K.exit ⊆ K.entry) :
    1 ≤ used.length :=
  List.length_pos_iff.mpr fun hnil => hK (h hnil)

theorem RunsAt.bind_strict {t : Token} (hP : RunsAt size past P K (L + 1) t) (hK : K.Strict)
    (hf : ∀ used a, K.result used a → Settles (fun n => size n - 1) (used.reverse ++ past) (fun n c => f n (a, c))
      ⟨K.exit, X, fun us b => result (used ++ us) b⟩ L) :
    RunsAt size past (fun n c => P n c >>= f n) ⟨K.entry, X, result⟩ (L + 1) t :=
  hP.bind_of hf (Nat.le_refl 1) hK.length_pos (fun n => by omega) (Nat.le_refl (L + 1))

theorem Finishes.bind (hP : Finishes size past P K)
    (hf : ∀ used a, K.result used a → Finishes size₂ (used.reverse ++ past) (fun n c => f n (a, c))
      ⟨K.exit, X, fun us b => result (used ++ us) b⟩)
    (hused : ∀ used : List Token, (used = [] → K.exit ⊆ K.entry) → d ≤ used.length)
    (hsize : ∀ n, size n ≤ size₂ n + d) :
    Finishes size past (fun n c => P n c >>= f n) ⟨K.entry, X, result⟩ := by
  obtain ⟨ext, a, ha, hP⟩ := hP
  obtain ⟨ext₂, b, hb, hfin⟩ := hf ext a ha
  refine ⟨ext ++ ext₂, b, hb, fun u hu => ⟨?_, ?_⟩⟩
  · rw [headD_append]
    exact (hP _ (hfin u hu).1).1
  · refine Takes.bind (hP _ (hfin u hu).1).2 (hfin u hu).2 hsize (hused ext ?_)
    rintro rfl k hk
    exact (hP ⟨k, .none⟩ hk).1

theorem Settles.bind (hP : Settles size past P K L)
    (hf : ∀ used a, K.result used a → Settles size (used.reverse ++ past) (fun n c => f n (a, c))
      ⟨K.exit, X, fun us b => result (used ++ us) b⟩ L) :
    Settles size past (fun n c => P n c >>= f n) ⟨K.entry, X, result⟩ L :=
  ⟨fun t => (hP.runs t).bind hf, fun hpos => (hP.finishes hpos).bind (fun used a ha => (hf used a ha).finishes hpos)
    (fun _ _ => Nat.zero_le _) fun _ => Nat.le_refl _⟩

/-- A strict first parser consumes a token, so that a smaller bound will do for the second. -/
theorem Settles.bind_strict (hP : Settles size past P K L) (hK : K.Strict)
    (hf : ∀ used a, K.result used a → Settles (fun n => size n - 1) (used.reverse ++ past) (fun n c => f n (a, c))
      ⟨K.exit, X, fun us b => result (used ++ us) b⟩ L) :
    Settles size past (fun n c => P n c >>= f n) ⟨K.entry, X, result⟩ L :=
  ⟨fun t => (hP.runs t).bind_of hf (Nat.le_refl 1) hK.length_pos (fun n => by omega) (Nat.le_succ L),
    fun hpos => (hP.finishes hpos).bind (fun used a ha => (hf used a ha).finishes hpos) hK.length_pos fun n => by omega⟩

end

/-! ## Steps of parsing -/

section
variable {α : Type} {size size' : Nat → Nat} {past : List Token} {R R' : Bounded α} {E X : Set TokenKind}
  {result : List Token → α → Prop} {t : Token} {L : Nat}

/-- At this token the parser is a strict one. -/
theorem RunsAt.becomes (D : Token → Prop) (ht : D t) (h : RunsAt size past R' ⟨E, X, result⟩ L t) (hX : ¬ X ⊆ E)
    (hR : ∀ n c, D c.current → 0 < size n → R n c = R' n c) {E' : Set TokenKind} :
    RunsAt size past R ⟨E', X, result⟩ L t :=
  (h.congr D ht (.inl hX) hR).enter hX

/-- Nothing is consumed at this token, as in front of what may stand behind. -/
theorem RunsAt.stop {a : α} (hresult : result [] a) (hX : X ⊆ E)
    (htakes : ∀ u : Token, u = t ∨ u.kind ∈ X → Takes size past R [] u (.ok a)) :
    RunsAt size past R ⟨E, X, result⟩ L t :=
  fun rest _ _ => ⟨[], t, rest, rfl, .inl ⟨a, hresult, fun _ => hX, htakes⟩⟩

/-- One token is consumed, and that is all. -/
theorem RunsAt.token (v : α) (hk : t.kind ≠ .eof) (hresult : result [t] v)
    (hR : ∀ n c, c.current = t → R n c = .ok (v, c.advance)) : RunsAt size past R ⟨E, X, result⟩ L t := by
  cases L with
  | zero => exact settles_zero.runs t
  | succ L =>
    refine RunsAt.cons (E := X) hk ?_ (settles_ok v hresult Set.Subset.rfl)
    intro n c c' hc hadvance _
    rw [hR n c hc, hadvance]

/-- A parser that can be finished with one token. -/
theorem finishes_token (k : TokenKind) (v : α) (hk : k ≠ .eof) (hE : k ∈ E) (hresult : result [⟨k, .none⟩] v)
    (hR : ∀ n c, c.current = ⟨k, .none⟩ → R n c = .ok (v, c.advance)) : Finishes size past R ⟨E, X, result⟩ := by
  refine ⟨[⟨k, .none⟩], v, hresult, fun u hu => ⟨hE, ?_⟩⟩
  intro n rest hlen
  show R n (facing past (⟨k, .none⟩ :: u :: rest)) = _
  rw [hR n _ rfl, Cursor.advance_facing hk]
  rfl

/-- A parser of one token. -/
theorem settles_token (v : Token → α) (k : TokenKind) (C : Set TokenKind) (hk : k ∈ C) (heof : .eof ∉ C)
    (hresult : ∀ t : Token, t.kind ∈ C → result [t] (v t))
    (hok : ∀ n c, c.kind ∈ C → R n c = .ok (v c.current, c.advance))
    (hno : ∀ t : Token, t.kind ∉ C → ∃ e : ParseError, e.PointsAt t ∧ ∀ n c, c.current = t → R n c = .error e) :
    Settles size past R ⟨{k}, X, result⟩ L := by
  refine ⟨fun t => ?_, fun _ => ?_⟩
  · by_cases ht : t.kind ∈ C
    · refine RunsAt.token (v t) (fun heq => heof (heq ▸ ht)) (hresult t ht) ?_
      rintro n c rfl
      exact hok n c ht
    · obtain ⟨e, hpoints, he⟩ := hno t ht
      exact RunsAt.reject hpoints fun n c hc _ => he n c hc
  · refine finishes_token k _ (fun heq => heof (heq ▸ hk)) rfl (hresult ⟨k, .none⟩ hk) ?_
    intro n c hc
    rw [hok n c (by rwa [Cursor.kind_of_current hc]), hc]

theorem settles_expect (p : Punct) (X : Set TokenKind) : Settles size past (fun _ => expect p)
    ⟨{.punct p}, X, fun ts s => ts = [⟨.punct p, s⟩]⟩ L := by
  refine settles_token (·.span) (.punct p) {.punct p} rfl (by simp) ?_ ?_ ?_
  · rintro ⟨k, s⟩ rfl
    rfl
  · intro n c hc
    exact if_pos (Cursor.check_of_kind hc)
  · intro t ht
    refine ⟨⟨.unexpectedToken (.punct p) t.tag, t.span, none⟩, ⟨rfl, rfl⟩, ?_⟩
    rintro n c rfl
    exact if_neg fun hc => ht (Cursor.kind_of_check hc)

theorem settles_expectClosing (close opener : Punct) (opened : Span) (X : Set TokenKind) :
    Settles size past (fun _ => expectClosing close opener opened)
      ⟨{.punct close}, X, fun ts s => ts = [⟨.punct close, s⟩]⟩ L := by
  have hend : ∀ c : Cursor, c.atEnd = true ↔ c.kind = .eof := fun c => by
    rw [Cursor.atEnd, beq_iff_eq]
    exact TokenKind.tag_eq_eof
  refine settles_token (·.span) (.punct close) {.punct close} rfl (by simp) ?_ ?_ ?_
  · rintro ⟨k, s⟩ rfl
    rfl
  · rintro n c (hc : c.kind = .punct close)
    rw [expectClosing, if_neg (by simp [hend, hc])]
    exact if_pos (Cursor.check_of_kind hc)
  · intro t ht
    by_cases heof : t.kind = .eof
    · refine ⟨⟨.unclosedDelimiter opener opened, t.span, none⟩, ⟨rfl, heof⟩, ?_⟩
      rintro n c rfl
      exact if_pos ((hend c).mpr heof)
    · refine ⟨⟨.unexpectedToken (.punct close) t.tag, t.span, none⟩, ⟨rfl, rfl⟩, ?_⟩
      rintro n c rfl
      rw [expectClosing, if_neg fun hc => heof ((hend c).mp hc)]
      exact if_neg fun hc => ht (Cursor.kind_of_check hc)

/-- The name a token spells, reserved or not. -/
def spelledName : TokenKind → String
  | .ident name => name
  | .keyword k => k.text
  | _ => ""

/-- The token is an identifier. -/
def identifiers : Set TokenKind := {k | ∃ name, k = .ident name}

theorem settles_expectIdent (X : Set TokenKind) : Settles size past (fun _ => expectIdent)
    ⟨{.ident "x"}, X, fun ts p => ts = [⟨.ident p.name, p.span⟩]⟩ L := by
  refine settles_token (fun t => ⟨spelledName t.kind, t.span⟩) (.ident "x") identifiers
    ⟨_, rfl⟩ (by rintro ⟨_, ⟨⟩⟩) ?_ ?_ ?_
  · rintro ⟨k, s⟩ ⟨name, rfl⟩
    rfl
  · rintro n c ⟨name, hc⟩
    have hcur : c.current.kind = .ident name := hc
    simp only [expectIdent, hc, hcur, spelledName, Cursor.span]
  · intro t ht
    refine ⟨⟨.expectedIdentifier t.tag, t.span, none⟩, ⟨rfl, rfl⟩, ?_⟩
    rintro n c rfl
    unfold expectIdent
    split
    · rename_i name hc
      exact absurd ⟨name, hc⟩ ht
    · rfl

/-- A punctuation that may be there, and what goes on behind it. Without it nothing is consumed. -/
theorem settles_eats (p : Punct) (v : Span → α) (hX : .punct p ∉ X) (hresult : result [] (v (endOf past.reverse)))
    (hnone : ∀ n c, c.eats? p = none → 0 < size n → R n c = .ok (v c.previousSpan, c))
    (hsome : ∀ n c c', c.eats? p = some c' → 0 < size n → R n c = R' n c')
    (h : ∀ s, Settles (fun n => size n - 1) (⟨.punct p, s⟩ :: past) R' ⟨E, X, fun us b => result (⟨.punct p, s⟩ :: us) b⟩ L) :
    Settles size past R ⟨X, X, result⟩ (L + 1) := by
  refine Settles.branch {.punct p} ?_ (settles_pure v hresult Set.Subset.rfl) (by simpa) (by simpa) ?_
  · rintro ⟨k, s⟩ rfl
    refine RunsAt.cons (by simp) ?_ (h s)
    intro n c c' hc hadvance hpos
    refine hsome n c c' ?_ (by omega)
    rw [← hadvance]
    exact Cursor.eats?_of_kind (by rw [Cursor.kind, hc])
  · intro n c hc hpos
    exact hnone n c (Cursor.eats?_none hc) hpos

/-- A semicolon that may be there. -/
theorem settles_skip (v : Span → α) (hX : .punct .semicolon ∉ X) (hnone : result [] (v (endOf past.reverse)))
    (hsome : ∀ s, result [⟨.punct .semicolon, s⟩] (v s)) :
    Settles size past (fun _ c => .ok (v (c.skip .semicolon).previousSpan, c.skip .semicolon)) ⟨X, X, result⟩ L := by
  refine Settles.shorten ?_ (Nat.le_succ L)
  apply settles_eats .semicolon v hX hnone
  case hnone =>
    intro n c hc _
    rw [Cursor.skip, hc, Option.getD_none]
  case hsome =>
    intro n c c' hc _
    rw [Cursor.skip, hc, Option.getD_some]
  case h =>
    intro s
    refine settles_pure v ?_ Set.Subset.rfl
    simpa using hsome s

end

end Grammar

end Treewalk
