/-
  Treewalk.Proofs.Respacing — the lexemes of a text with other layout between them.

  `lexemes`: what the lexer cuts off a text, less the layout. `Gap`: layout that begins with a blank. A
  text is `Respaced` from lexemes if it is made of them, in order, with gaps between them.

  Proved: a blank ends each lexeme (`Munch.ends`), the tokens of a text are made of its lexemes
  (`lex_lexemes`), which their spans cut out of it as long as they can (`lexemes_eq_slices`), and a text
  respaced from the lexemes of another has the same kinds of tokens (`lex_respaced`).
-/

import Treewalk.Proofs.Tiling

namespace Treewalk

open Escape (byteLength)

/-- The characters that start inside a span, of a text that starts at offset `pos`. -/
def Span.slice (s : Span) (pos : Nat) : List Char → List Char
  | [] => []
  | c :: cs =>
    if s.start ≤ pos ∧ pos < s.stop then c :: s.slice (pos + c.utf8Size) cs else s.slice (pos + c.utf8Size) cs

namespace Lexer

/-- Layout that begins with a blank. -/
structure Gap (g : List Char) : Prop where
  layout : Layout g
  blank : ∃ b cs, g = b :: cs ∧ isGap b = true

/-- What is between lexemes. -/
def Shape.isLayout : Shape → Bool
  | .gap | .lineComment | .blockComment => true
  | _ => false

/-- The lexemes of a text, without the layout. -/
def lexemesOf (text : List Char) : List (List Char) :=
  match text with
  | [] => []
  | c :: cs =>
    let (s, n) := shape c cs
    let lexemes := lexemesOf (cs.drop (n - 1))
    if s.isLayout then lexemes else (c :: cs.take (n - 1)) :: lexemes
termination_by text.length
decreasing_by simp only [List.length_cons, List.length_drop]; omega

/-- The lexemes in order, each with a gap behind it; the last can do without. -/
inductive Spaced : List (List Char) → List Char → Prop
  | nil : Spaced [] []
  | last {l : List Char} : Spaced [l] l
  | cons {l g text : List Char} {ls : List (List Char)} : Gap g → Spaced ls text → Spaced (l :: ls) (l ++ (g ++ text))

/-- The lexemes in order with gaps between them; in front of them any layout will do. -/
def Respaced (ls : List (List Char)) (text : List Char) : Prop :=
  ∃ g rest, text = g ++ rest ∧ Layout g ∧ Spaced ls rest

/-! ## What a blank ends -/

section
variable {s s' : Shape} {k : TokenKind} {c b : Char} {pos : Nat} {l l' cs more rest : List Char}

theorem isGap_of_isWordPart (h : isWordPart c = true) : isGap c = false := by
  cases hg : isGap c with
  | false => rfl
  | true => rcases isGap_iff.mp hg with rfl | rfl | rfl | rfl | rfl <;> cases h

theorem isGap_of_isHexDigit (h : Escape.isHexDigit c = true) : isGap c = false := by
  cases hg : isGap c with
  | false => rfl
  | true => rcases isGap_iff.mp hg with rfl | rfl | rfl | rfl | rfl <;> cases h

theorem isGap_of_isDigit (h : c.isDigit = true) : isGap c = false := by
  refine isGap_of_isWordPart ?_
  simp [isWordPart, h]

theorem no_gap_of_all (h : (l.all fun c => !isGap c) = true) : ∀ c ∈ l, isGap c = false := by
  simpa using h

theorem Fraction.no_gap (h : Fraction l) : ∀ c ∈ l, isGap c = false := by
  cases h with
  | none => simp
  | digits hds => exact List.forall_mem_cons.mpr ⟨rfl, fun c hc => isGap_of_isDigit (hds c hc)⟩

theorem Mark.no_gap (h : Mark l) : ∀ c ∈ l, isGap c = false := by
  cases h with
  | plain hc => rcases hc with rfl | rfl <;> exact no_gap_of_all (by decide)
  | signed hc hs => rcases hc with rfl | rfl <;> rcases hs with rfl | rfl <;> exact no_gap_of_all (by decide)

theorem Exponent.no_gap (h : Exponent l) : ∀ c ∈ l, isGap c = false := by
  cases h with
  | none => simp
  | some hm _ hds =>
    exact List.forall_mem_append.mpr ⟨hm.no_gap, fun c hc => isGap_of_isDigit (hds c hc)⟩

theorem Punct.no_gap (p : Punct) : ∀ c ∈ p.text.toList, isGap c = false := by
  cases p <;> exact no_gap_of_all (by decide)

/-- Blanks are in strings, in comments and between lexemes. -/
theorem Spells.no_gap (h : Spells s l) : (∀ c ∈ l, isGap c = false) ∨ s = .gap ∨ s = .string ∨ s = .openString ∨
    s = .lineComment ∨ s = .blockComment ∨ s = .openComment := by
  have digits {ds : List Char} (hds : Digits ds) : ∀ c ∈ ds, isGap c = false :=
    fun c hc => isGap_of_isDigit (hds c hc)
  cases h with
  | word hc hcs =>
    refine .inl (List.forall_mem_cons.mpr ⟨isGap_of_isWordPart ?_, fun c hc => isGap_of_isWordPart (hcs c hc)⟩)
    simp [isWordPart, hc]
  | hexNumber hx _ hds =>
    refine .inl (List.forall_mem_cons.mpr ⟨rfl, List.forall_mem_cons.mpr ⟨?_, fun c hc => isGap_of_isHexDigit (hds c hc)⟩⟩)
    rcases hx with rfl | rfl <;> rfl
  | malformedHex hx => rcases hx with rfl | rfl <;> exact .inl (no_gap_of_all (by decide))
  | number hd hds hf he =>
    exact .inl (List.forall_mem_cons.mpr ⟨isGap_of_isDigit hd,
      List.forall_mem_append.mpr ⟨digits hds, List.forall_mem_append.mpr ⟨hf.no_gap, he.no_gap⟩⟩⟩)
  | malformedNumber hd hds hf hm =>
    exact .inl (List.forall_mem_cons.mpr ⟨isGap_of_isDigit hd,
      List.forall_mem_append.mpr ⟨digits hds, List.forall_mem_append.mpr ⟨hf.no_gap, hm.no_gap⟩⟩⟩)
  | pointNumber hd hds he =>
    exact .inl (List.forall_mem_cons.mpr ⟨rfl, List.forall_mem_cons.mpr ⟨isGap_of_isDigit hd,
      List.forall_mem_append.mpr ⟨digits hds, he.no_gap⟩⟩⟩)
  | punct heq =>
    subst heq
    exact .inl (Punct.no_gap _)
  | _ => simp

/-- What begins with a string is not longer than it. -/
theorem Spells.length_le_string (h : Spells .string l) (h' : Spells s' l') (hpre : l <+: l') : l'.length ≤ l.length := by
  cases h with
  | string hq hb =>
    rename_i q body
    have hhalts : ∀ cs, Halts q (q :: cs) := fun cs => halts_quote (by rcases hq with rfl | rfl <;> decide)
    obtain ⟨more, rfl⟩ := hpre
    simp only [List.cons_append, List.append_assoc, List.nil_append] at h' ⊢
    rcases h'.of_quote hq with ⟨-, body', heq, hb'⟩ | ⟨-, body', tail, heq, hb', htail⟩
    · have hle := (hb.prefix_of_halts hb' (hhalts more) ⟨[q], heq.symm⟩).length_le
      rw [heq]
      simp
      omega
    · have hle := (hb.prefix_of_halts hb' (hhalts more) ⟨tail, heq.symm⟩).length_le
      rw [heq]
      rcases htail with rfl | rfl <;> simp <;> omega

theorem Spells.quoted (hs : s = .string ∨ s = .openString) (h : Spells s (c :: cs)) : c = '"' ∨ c = '\'' := by
  generalize hl : c :: cs = l at h
  cases h with
  | string hq _ | openString hq _ _ =>
    cases hl
    exact hq
  | _ => simp at hs

theorem Spells.commented (hs : s = .lineComment ∨ s = .blockComment ∨ s = .openComment) (h : Spells s (c :: cs)) :
    c = '/' ∧ ∃ d ds, cs = d :: ds ∧ (d = '/' ∨ d = '*') := by
  generalize hl : c :: cs = l at h
  cases h with
  | lineComment _ | blockComment _ | openComment _ =>
    cases hl
    exact ⟨rfl, _, _, rfl, by simp⟩
  | _ => simp at hs

/-- What begins with the lexeme of a token and a blank is no lexeme. -/
theorem Spells.not_followed {span : Span} (h : Spells s l) (hk : kind s l span = .ok (some k)) (hb : isGap b = true) :
    ¬ Spells s' (l ++ b :: more) := by
  intro h'
  obtain ⟨c, l, rfl⟩ := List.exists_cons_of_ne_nil h.ne_nil
  have hstring (hs : s' = .string ∨ s' = .openString) : False := by
    rcases h.of_quote (h'.quoted hs) with ⟨rfl, -⟩ | ⟨rfl, -⟩
    · have hle := h.length_le_string h' (List.prefix_append _ _)
      simp at hle
    · cases hk
  have hcomment (hs : s' = .lineComment ∨ s' = .blockComment ∨ s' = .openComment) : False := by
    obtain ⟨rfl, d, ds, hds, hd⟩ := h'.commented hs
    rcases h.of_slash with ⟨-, rfl⟩ | ⟨rfl, -⟩ | ⟨rfl, -⟩ | ⟨rfl, -⟩
    · obtain ⟨rfl, -⟩ := List.cons_eq_cons.mp hds
      rcases hd with rfl | rfl <;> cases hb
    all_goals cases hk
  rcases h'.no_gap with hgap | rfl | hs | hs | hs | hs | hs
  · rw [hgap b (by simp)] at hb
    cases hb
  · cases h' with
    | gap hc _ =>
      obtain ⟨rfl, -⟩ := h.of_gap hc
      cases hk
  · exact hstring (.inl hs)
  · exact hstring (.inr hs)
  · exact hcomment (.inl hs)
  · exact hcomment (.inr (.inl hs))
  · exact hcomment (.inr (.inr hs))

theorem longest_of_length_le (hl : Spells s l) (hmax : ∀ s' l', Spells s' l' → l' <+: l ++ rest → l'.length ≤ l.length) :
    Longest s l.length (l ++ rest) := by
  obtain ⟨c, l, rfl⟩ := List.exists_cons_of_ne_nil hl.ne_nil
  have hshape : shape c (l ++ rest) = (s, (c :: l).length) := shape_eq hl (List.prefix_append _ _) hmax
  rcases shape_longest c (l ++ rest) with h | ⟨-, hnone⟩
  · rwa [hshape] at h
  · exact absurd (List.prefix_append (c :: l) rest) (hnone s _ hl)

/-- A text that is one lexeme makes one token. -/
theorem lex_spelled (hl : Spells s l) (hk : ∀ span, kind s l span = .ok (some k)) :
    lex (String.ofList l) = .ok (oneToken k (byteLength l)) := by
  have hlongest : Longest s l.length (l ++ []) :=
    longest_of_length_le hl fun s' l' _ hpre => by simpa using hpre.length_le
  exact hlongest.alone.lex_eq (hk _)

/-- In front of a blank, or of nothing, a lexeme stays the longest. -/
theorem Munch.ends (h : Munch k l rest) (hmore : ∀ b ∈ more.head?, isGap b = true) :
    ∃ s, Longest s l.length (l ++ more) ∧ ∀ span, kind s l span = .ok (some k) := by
  obtain ⟨s, hs, hk⟩ := h.rule
  refine ⟨s, longest_of_length_le hs fun s' l' hl' hpre => ?_, hk⟩
  by_contra hlong
  obtain ⟨tail, rfl⟩ := List.prefix_of_prefix_length_le (List.prefix_append l more) hpre (by omega)
  cases tail with
  | nil => simp at hlong
  | cons b tail =>
    obtain ⟨_, rfl⟩ := (List.prefix_append_right_inj _).mp hpre
    exact hs.not_followed (hk .none) (hmore b rfl) hl'

theorem Munch.lexFrom (h : Munch k l rest) (hmore : ∀ b ∈ more.head?, isGap b = true) :
    lexFrom pos (l ++ more) =
      (Lexer.lexFrom (pos + byteLength l) more).map (⟨k, .between pos (pos + byteLength l)⟩ :: ·) := by
  obtain ⟨s, hlongest, hk⟩ := h.ends hmore
  exact lexFrom_token hlongest (hk _)

end

/-! ## Texts made of lexemes and gaps -/

section
variable {pos : Nat} {g text : List Char} {ls : List (List Char)} {ks : List TokenKind}

theorem Gap.head (h : Gap g) : ∀ b ∈ (g ++ text).head?, isGap b = true := by
  obtain ⟨b, cs, rfl, hb⟩ := h.blank
  simpa using hb

theorem lexFrom_spaced (h : Spaced ls text) (hls : List.Forall₂ (fun k l => ∃ rest, Munch k l rest) ks ls) :
    ∃ us, lexFrom pos text = .ok us ∧ us.map (·.kind) = ks ++ [.eof] := by
  induction h generalizing pos ks with
  | nil =>
    cases hls
    exact ⟨[⟨.eof, .point (Span.clamp pos)⟩], by simp [lexFrom], rfl⟩
  | @last l =>
    cases hls with | cons hmunch htail
    cases htail
    obtain ⟨_, hmunch⟩ := hmunch
    have hlex : lexFrom pos (l ++ []) = _ := hmunch.lexFrom (by simp)
    rw [List.append_nil] at hlex
    simp [hlex, lexFrom, Except.map]
  | cons hgap _ ih =>
    cases hls with | cons hmunch htail
    obtain ⟨_, hmunch⟩ := hmunch
    obtain ⟨us, hus, hkinds⟩ := ih htail
    rw [hmunch.lexFrom hgap.head, lexFrom_layout hgap.layout, hus]
    exact ⟨_, rfl, congrArg (_ :: ·) hkinds⟩

/-! ## Slices -/

theorem slice_append (s : Span) (pos : Nat) (cs ds : List Char) :
    s.slice pos (cs ++ ds) = s.slice pos cs ++ s.slice (pos + byteLength cs) ds := by
  induction cs generalizing pos with
  | nil => rfl
  | cons c cs ih =>
    simp only [List.cons_append, Span.slice, ih, byteLength_cons, Nat.add_assoc]
    split <;> rfl

theorem slice_inside {s : Span} {cs : List Char} (hstart : s.start ≤ pos) (hstop : pos + byteLength cs ≤ s.stop) :
    s.slice pos cs = cs := by
  induction cs generalizing pos with
  | nil => rfl
  | cons c cs ih =>
    have hsize := c.utf8Size_pos
    rw [byteLength_cons] at hstop
    rw [Span.slice, if_pos ⟨hstart, by omega⟩, ih (by omega) (by omega)]

theorem slice_outside {s : Span} {cs : List Char} (h : pos + byteLength cs ≤ s.start ∨ s.stop ≤ pos) :
    s.slice pos cs = [] := by
  induction cs generalizing pos with
  | nil => rfl
  | cons c cs ih =>
    have hsize := c.utf8Size_pos
    rw [byteLength_cons] at h
    rw [Span.slice, if_neg (by omega), ih (by omega)]

theorem cuts_slice {s : Span} {source text : List Char} (h : s.Cuts source text) : s.slice 0 source = text := by
  obtain ⟨front, back, rfl, rfl⟩ := h
  simp only [slice_append]
  rw [slice_outside (by simp), slice_inside (by simp) (by simp), slice_outside (by simp)]
  simp

/-! ## Lexemes -/

theorem lexemesOf_step {s : Shape} {l rest : List Char} (h : Longest s l.length (l ++ rest)) :
    lexemesOf (l ++ rest) = if s.isLayout then lexemesOf rest else l :: lexemesOf rest := by
  cases l with
  | nil => exact absurd rfl h.spells_lexeme.ne_nil
  | cons c l =>
    have hs : shape c (l ++ rest) = (s, (c :: l).length) := h.shape_eq
    have htake : c :: (l ++ rest).take ((c :: l).length - 1) = c :: l := by simp
    have hdrop : (l ++ rest).drop ((c :: l).length - 1) = rest := by simp
    rw [List.cons_append, lexemesOf]
    simp only [hs, htake, hdrop]

/-- The lexeme, in front of what is left of the text, makes the token, and the token's span cuts it out
    of the text if spans can hold the offsets. -/
structure Makes (source lexeme : List Char) (t : Token) : Prop where
  munch : ∃ rest, Munch t.kind lexeme rest
  cuts : byteLength source ≤ Span.maxOffset → t.span.Cuts source lexeme

theorem exists_makes {source : List Char} {ts : List Token} (h : List.Forall₂ (fun t l => Makes source l t) ts ls) :
    ∀ t ∈ ts, ∃ l, Makes source l t := by
  induction h with
  | nil => simp
  | cons hmakes _ ih => exact List.forall_mem_cons.mpr ⟨⟨_, hmakes⟩, ih⟩

/-- By induction along the lexemes, `before` being what is passed. -/
theorem lexFrom_lexemes {ts : List Token} {before : List Char} (h : lexFrom pos text = .ok ts)
    (hpos : byteLength before = pos) :
    ∃ init last, ts = init ++ [last] ∧ last.kind = .eof ∧
      List.Forall₂ (fun t l => Makes (before ++ text) l t) init (lexemesOf text) := by
  revert before
  refine lexFrom_induction (motive := fun pos text ts => ∀ {before}, byteLength before = pos → ∃ init last,
    ts = init ++ [last] ∧ last.kind = .eof ∧ List.Forall₂ (fun t l => Makes (before ++ text) l t) init (lexemesOf text))
    ?_ ?_ ?_ h
  · intro pos before _
    exact ⟨[], _, rfl, rfl, by simp [lexemesOf]⟩
  · intro pos s l rest ts hl hk hrest ih before hpos
    have hlayout : s.isLayout = true := by rcases kind_eq_none hk with rfl | rfl | rfl <;> rfl
    rw [lexemesOf_step hl, if_pos hlayout, ← List.append_assoc]
    exact ih (Nat.le_refl _) hrest (by rw [byteLength_append, hpos])
  · intro pos s l rest k ts hl hk ih before hpos
    have hlayout : ¬ s.isLayout = true := by
      intro hs
      cases s <;> cases hs <;> cases hk
    obtain ⟨init, last, rfl, hlast, hinit⟩ := @ih (before ++ l) (by rw [byteLength_append, hpos])
    rw [lexemesOf_step hl, if_neg hlayout]
    refine ⟨_ :: init, last, rfl, hlast, .cons ⟨⟨rest, hl.munch hk⟩, fun hfits => ⟨before, rest, rfl, ?_⟩⟩ ?_⟩
    · simp only [byteLength_append] at hfits
      rw [hpos, Span.between_of_le (by omega) (by omega)]
    · simpa using hinit

end

end Lexer

/-- The lexemes of a source. -/
def lexemes (source : String) : List (List Char) := Lexer.lexemesOf source.toList

section
variable {source text : String} {ts : List Token}

/-- The tokens of a source, save the end of the input, are made of its lexemes. -/
theorem lex_lexemes (h : lex source = .ok ts) :
    ∃ init last, ts = init ++ [last] ∧ last.kind = .eof ∧
      List.Forall₂ (fun t l => Lexer.Makes source.toList l t) init (lexemes source) :=
  Lexer.lexFrom_lexemes h (show Escape.byteLength [] = 0 from rfl)

/-- The lexemes are the slices of the source that its tokens stand for. -/
theorem lexemes_eq_slices (h : lex source = .ok ts) (hfits : source.utf8ByteSize ≤ Span.maxOffset) :
    lexemes source = ts.dropLast.map fun t => t.span.slice 0 source.toList := by
  obtain ⟨init, last, rfl, -, hinit⟩ := lex_lexemes h
  rw [← Lexer.byteLength_toList] at hfits
  rw [List.dropLast_concat, ← List.forall₂_eq_eq_eq, List.forall₂_map_right_iff]
  exact hinit.flip.imp fun l t hmakes => (Lexer.cuts_slice (hmakes.cuts hfits)).symm

/-- Lexemes make the same tokens, whatever the layout between them. -/
theorem lex_respaced (h : lex source = .ok ts) (hr : Lexer.Respaced (lexemes source) text.toList) :
    ∃ us, lex text = .ok us ∧ us.map (·.kind) = ts.map (·.kind) := by
  obtain ⟨init, last, rfl, hlast, hinit⟩ := lex_lexemes h
  obtain ⟨g, rest, htext, hg, hspaced⟩ := hr
  have hls : List.Forall₂ (fun k l => ∃ rest, Lexer.Munch k l rest) (init.map (·.kind)) (lexemes source) :=
    List.forall₂_map_left_iff.mpr (hinit.imp fun t l hmakes => hmakes.munch)
  obtain ⟨us, hus, hkinds⟩ : ∃ us, Lexer.lexFrom (0 + Escape.byteLength g) rest = .ok us ∧ _ :=
    Lexer.lexFrom_spaced hspaced hls
  refine ⟨us, ?_, by simp [hkinds, hlast]⟩
  rw [lex, htext, Lexer.lexFrom_layout hg, hus]

end

end Treewalk
