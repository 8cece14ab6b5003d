/-
  Treewalk.Proofs.Tiling — tokens and what stands between them make up a text.

  `Layout`: blanks and comments. `Munch k lexeme rest`: in front of `rest`, the lexeme is the longest
  there is by any rule, and makes a token of kind `k`, in its place as well as alone. A text is
  `Tiled` by tokens if it is made of their lexemes, in order, with layout between them.

  Proved: layout is passed over (`lexFrom_layout`), a longest lexeme is cut off (`lexFrom_token`), and
  a text whose offsets spans can hold is tiled by its tokens (`lex_tiles`).
-/

import Treewalk.Proofs.MaximalMunch
import Treewalk.Proofs.TokenOrder

namespace Treewalk

open Escape (byteLength)

/-- The text stands where the span says. -/
def Span.Cuts (span : Span) (source text : List Char) : Prop :=
  ∃ front back, source = front ++ (text ++ back) ∧ span = ⟨byteLength front, byteLength front + byteLength text⟩

namespace Lexer

/-- Blanks, block comments and line comments, these up to the end of their line. -/
inductive Layout : List Char → Prop
  | nil : Layout []
  | blank {c : Char} {cs : List Char} : isGap c = true → Layout cs → Layout (c :: cs)
  | line {body cs : List Char} : '\n' ∉ body → Layout cs → Layout ('/' :: '/' :: (body ++ '\n' :: cs))
  | block {body cs : List Char} : ¬ ['*', '/'] <:+: body ++ ['*'] → Layout cs →
      Layout ('/' :: '*' :: (body ++ '*' :: '/' :: cs))

theorem Layout.append {g h : List Char} (hg : Layout g) (hh : Layout h) : Layout (g ++ h) := by
  induction hg with
  | nil => exact hh
  | blank hc _ ih => exact .blank hc ih
  | line hbody _ ih => simpa using Layout.line hbody ih
  | block hbody _ ih => simpa using Layout.block hbody ih

/-- The tokens of a text of so many bytes that is one lexeme. -/
def oneToken (k : TokenKind) (size : Nat) : List Token := [⟨k, .between 0 size⟩, ⟨.eof, .point (Span.clamp size)⟩]

theorem oneToken_of_le {k : TokenKind} {size : Nat} (h : size ≤ Span.maxOffset) :
    oneToken k size = [⟨k, ⟨0, size⟩⟩, ⟨.eof, .point size⟩] := by
  rw [oneToken, Span.between_of_le (Nat.zero_le _) h, Span.clamp_of_le h]

/-- What the lexer cuts off in front of `rest`, and what it makes of it, wherever it stands. -/
structure Munch (k : TokenKind) (lexeme rest : List Char) : Prop where
  rule : ∃ s, Spells s lexeme ∧ ∀ span, kind s lexeme span = .ok (some k)
  longest : ∀ s l, Spells s l → l <+: lexeme ++ rest → l.length ≤ lexeme.length
  keyword : ∀ kw : Keyword, lexeme = kw.text.toList → k = .keyword kw
  alone : lex (String.ofList lexeme) = .ok (oneToken k (byteLength lexeme))

/-- The text, which starts at offset `pos`, is made of the tokens and of layout. A line comment may
    end with the text instead of its line. -/
inductive Tiled : Nat → List Char → List Token → Prop
  | eof {pos : Nat} {gap : List Char} : Layout gap → Tiled pos gap [⟨.eof, .point (pos + byteLength gap)⟩]
  | lastLine {pos : Nat} {gap body : List Char} : Layout gap → '\n' ∉ body →
      Tiled pos (gap ++ '/' :: '/' :: body) [⟨.eof, .point (pos + byteLength (gap ++ '/' :: '/' :: body))⟩]
  | token {pos : Nat} {k : TokenKind} {gap lexeme rest : List Char} {ts : List Token} :
      Layout gap → Munch k lexeme rest → Tiled (pos + byteLength gap + byteLength lexeme) rest ts →
      Tiled pos (gap ++ (lexeme ++ rest))
        (⟨k, ⟨pos + byteLength gap, pos + byteLength gap + byteLength lexeme⟩⟩ :: ts)

theorem Tiled.layout {pos : Nat} {g text : List Char} {ts : List Token} (hg : Layout g)
    (h : Tiled (pos + byteLength g) text ts) : Tiled pos (g ++ text) ts := by
  cases h with
  | eof hgap =>
    rw [Nat.add_assoc, ← byteLength_append]
    exact .eof (hg.append hgap)
  | lastLine hgap hbody =>
    rw [Nat.add_assoc, ← byteLength_append, ← List.append_assoc]
    exact .lastLine (hg.append hgap) hbody
  | token hgap hmunch hrest =>
    rw [Nat.add_assoc pos, ← byteLength_append] at hrest ⊢
    rw [← List.append_assoc g]
    exact .token (hg.append hgap) hmunch hrest

/-! ## What a lexeme makes -/

section
variable {pos : Nat} {cs l g rest body : List Char} {c : Char} {s : Shape} {k : TokenKind} {span : Span}

/-- Where a lexeme stands has no part in the token that it makes. -/
theorem kind_ok_of {r : Option TokenKind} (h : kind s l span = .ok r) (span' : Span) : kind s l span' = .ok r := by
  unfold kind at h ⊢
  cases s with
  | hexNumber | number => dsimp only at h ⊢; split at h <;> simp_all
  | string =>
    dsimp only at h ⊢
    cases hd : Escape.decode (l.drop 1).dropLast <;> rw [hd] at h
    · cases h
    · exact h
  | _ => simp_all

/-- The shapes that make no token. -/
theorem kind_eq_none (h : kind s l span = .ok none) : s = .gap ∨ s = .lineComment ∨ s = .blockComment := by
  unfold kind at h
  cases s with
  | gap | lineComment | blockComment => simp
  | hexNumber | number | string => dsimp only at h; split at h <;> simp at h
  | _ => simp at h

/-- What is longest in front of a text is so in front of none. -/
theorem Longest.alone (h : Longest s l.length (l ++ rest)) : Longest s l.length l where
  le := Nat.le_refl _
  spells := by simpa using h.spells
  longest s' l' hl' hpre := h.longest s' l' hl' (hpre.trans (List.prefix_append l rest))

/-- A text that is its longest lexeme makes one token. -/
theorem Longest.lex_eq (h : Longest s l.length l) (hk : kind s l (.between 0 (byteLength l)) = .ok (some k)) :
    lex (String.ofList l) = .ok (oneToken k (byteLength l)) := by
  rw [← Nat.zero_add (byteLength l)] at hk
  rw [← List.append_nil l] at h
  have hlex : lexFrom 0 (l ++ []) = _ := lexFrom_token (by simpa using h) hk
  rw [lex, String.toList_ofList, ← List.append_nil l, hlex]
  simp [lexFrom, Except.map, oneToken]

/-! ## Layout -/

theorem lexFrom_gaps (hc : isGap c = true) :
    lexFrom pos (c :: cs) = lexFrom (pos + byteLength (c :: cs.takeWhile isGap)) (cs.dropWhile isGap) := by
  have hcs : c :: cs = c :: cs.takeWhile isGap ++ cs.dropWhile isGap := by simp
  have h : Longest .gap _ (c :: cs) := longest_gap hc
  rw [hcs] at h ⊢
  exact lexFrom_skip h rfl

theorem lexFrom_blank (hc : isGap c = true) : lexFrom pos (c :: cs) = lexFrom (pos + c.utf8Size) cs := by
  rw [lexFrom_gaps hc, byteLength_cons, ← Nat.add_assoc]
  cases cs with
  | nil => rfl
  | cons d cs =>
    by_cases hd : isGap d
    · rw [List.takeWhile_cons_of_pos hd, List.dropWhile_cons_of_pos hd, lexFrom_gaps hd]
    · rw [List.takeWhile_cons_of_neg hd, List.dropWhile_cons_of_neg hd]
      rfl

theorem lexFrom_line (hbody : '\n' ∉ body) :
    lexFrom pos ('/' :: '/' :: (body ++ '\n' :: cs)) =
      lexFrom (pos + byteLength ('/' :: '/' :: (body ++ ['\n']))) cs := by
  have hrun : (body ++ '\n' :: cs).takeWhile (· ≠ '\n') = body := by
    have hall : ∀ d ∈ body, decide (d ≠ '\n') = true := fun d hd => decide_eq_true fun h => hbody (h ▸ hd)
    rw [List.takeWhile_append_of_pos hall]
    simp
  have h := longest_lineComment (body ++ '\n' :: cs)
  rw [hrun, show 2 + body.length = ('/' :: '/' :: body).length by simp; omega] at h
  rw [show '/' :: '/' :: (body ++ '\n' :: cs) = '/' :: '/' :: body ++ '\n' :: cs from rfl,
    lexFrom_skip h rfl, lexFrom_blank (by decide), Nat.add_assoc]
  simp [byteLength_append, Nat.add_assoc]

theorem lexFrom_block (hbody : ¬ ['*', '/'] <:+: body ++ ['*']) :
    lexFrom pos ('/' :: '*' :: (body ++ '*' :: '/' :: cs)) =
      lexFrom (pos + byteLength ('/' :: '*' :: (body ++ ['*', '/']))) cs := by
  have h : Longest .blockComment _ ('/' :: '*' :: (body ++ '*' :: '/' :: cs)) := longest_blockComment hbody
  have htext : '/' :: '*' :: (body ++ '*' :: '/' :: cs) = '/' :: '*' :: (body ++ ['*', '/']) ++ cs := by simp
  rw [htext, show 2 + (body.length + 2) = ('/' :: '*' :: (body ++ ['*', '/'])).length by simp; omega] at h
  rw [htext]
  exact lexFrom_skip h rfl

theorem lexFrom_layout (hg : Layout g) : lexFrom pos (g ++ cs) = lexFrom (pos + byteLength g) cs := by
  induction hg generalizing pos with
  | nil => rfl
  | blank hc _ ih => rw [List.cons_append, lexFrom_blank hc, ih, byteLength_cons, Nat.add_assoc]
  | line hbody _ ih =>
    rw [show ∀ body h : List Char, '/' :: '/' :: (body ++ '\n' :: h) ++ cs = '/' :: '/' :: (body ++ '\n' :: (h ++ cs))
      by simp, lexFrom_line hbody, ih]
    simp [byteLength_append, Nat.add_assoc]
  | block hbody _ ih =>
    rw [show ∀ body h : List Char,
      '/' :: '*' :: (body ++ '*' :: '/' :: h) ++ cs = '/' :: '*' :: (body ++ '*' :: '/' :: (h ++ cs)) by simp,
      lexFrom_block hbody, ih]
    simp [byteLength_append, Nat.add_assoc]

theorem layout_gap (h : Spells .gap l) : Layout l := by
  cases h with
  | gap hc hcs =>
    refine .blank hc ?_
    rename_i cs
    induction cs with
    | nil => exact .nil
    | cons d cs ih => exact .blank (hcs d (by simp)) (ih fun e he => hcs e (by simp [he]))

theorem layout_block (h : Spells .blockComment l) : Layout l := by
  cases h with
  | blockComment hbody => exact .block hbody .nil

/-- Behind a line comment its line ends, or the text. -/
theorem Longest.lineComment_rest (h : Longest .lineComment l.length (l ++ rest)) :
    ∃ body, l = '/' :: '/' :: body ∧ '\n' ∉ body ∧ ∀ c ∈ rest.head?, c = '\n' := by
  obtain ⟨body, rfl, hbody⟩ : ∃ body, l = '/' :: '/' :: body ∧ '\n' ∉ body := by
    cases h.spells_lexeme with
    | lineComment hbody => exact ⟨_, rfl, hbody⟩
  refine ⟨body, rfl, hbody, ?_⟩
  cases rest with
  | nil => simp
  | cons d rest =>
    simp only [List.head?_cons, Option.mem_def, Option.some.injEq, forall_eq']
    by_contra hd
    have hnot : '\n' ∉ body ++ [d] := by simp [hbody, Ne.symm hd]
    rcases h.longest _ _ (.lineComment hnot) ⟨rest, by simp⟩ with hlt | ⟨hlen, -⟩
    · simp at hlt
    · simp at hlen

end

/-! ## All tokens of a text -/

section
variable {pos : Nat} {l rest : List Char} {s : Shape} {k : TokenKind}

theorem ofText?_text (kw : Keyword) : Keyword.ofText? kw.text = some kw := by cases kw <;> rfl

theorem Longest.munch {span : Span} (h : Longest s l.length (l ++ rest)) (hk : kind s l span = .ok (some k)) :
    Munch k l rest where
  rule := ⟨s, h.spells_lexeme, kind_ok_of hk⟩
  longest s' l' hl' hpre := by
    rcases h.longest s' l' hl' hpre with hlt | ⟨hlen, -⟩
    · exact Nat.le_of_lt hlt
    · exact Nat.le_of_eq hlen
  keyword kw hkw := by
    have hword : ∀ kw : Keyword, ∃ c cs, kw.text.toList = c :: cs ∧ isWordStart c = true := by
      intro kw
      cases kw <;> exact ⟨_, _, rfl, by decide⟩
    obtain ⟨c, cs, hcs, hc⟩ := hword kw
    have hspells := h.spells_lexeme
    rw [hkw, hcs] at hspells
    obtain ⟨rfl, -⟩ := hspells.of_word hc
    rw [hkw] at hk
    simpa [kind, wordKind, ofText?_text] using hk.symm
  alone := h.alone.lex_eq (kind_ok_of hk _)

/-- The end of its line belongs to the layout as well, unless the text ends there. -/
theorem tiled_lineComment {ts : List Token} (hl : Longest .lineComment l.length (l ++ rest))
    (h : lexFrom (pos + byteLength l) rest = .ok ts) (hfits : pos + byteLength (l ++ rest) ≤ Span.maxOffset)
    (hrest : ∀ {pos' : Nat} {text : List Char}, text.length ≤ rest.length → lexFrom pos' text = .ok ts →
      pos' + byteLength text ≤ Span.maxOffset → Tiled pos' text ts) :
    Tiled pos (l ++ rest) ts := by
  obtain ⟨body, rfl, hbody, hhead⟩ := hl.lineComment_rest
  cases rest with
  | nil =>
    rw [List.append_nil] at hfits ⊢
    simp only [lexFrom, Except.ok.injEq] at h
    rw [← h, Span.clamp_of_le hfits]
    exact @Tiled.lastLine pos [] body .nil hbody
  | cons d rest =>
    obtain rfl := hhead d rfl
    have hline : Layout ('/' :: '/' :: (body ++ ['\n'])) := .line hbody .nil
    have hsplit : '/' :: '/' :: body ++ '\n' :: rest = '/' :: '/' :: (body ++ ['\n']) ++ rest := by simp
    rw [hsplit] at hfits ⊢
    refine Tiled.layout hline (hrest (Nat.le_succ _) ?_ ?_)
    · rw [← lexFrom_line hbody, ← h]
      exact lexFrom_skip hl rfl
    · rwa [Nat.add_assoc, ← byteLength_append]

theorem lexFrom_tiled {text : List Char} {ts : List Token} (h : lexFrom pos text = .ok ts)
    (hfits : pos + byteLength text ≤ Span.maxOffset) : Tiled pos text ts := by
  revert hfits
  refine lexFrom_induction
    (motive := fun pos text ts => pos + byteLength text ≤ Span.maxOffset → Tiled pos text ts) ?_ ?_ ?_ h
  · intro pos hfits
    rw [show Span.clamp pos = pos from Span.clamp_of_le hfits]
    exact @Tiled.eof pos [] .nil
  · intro pos s l rest ts hl hk hrest ih hfits
    have hbehind : pos + byteLength l + byteLength rest ≤ Span.maxOffset := by
      rwa [Nat.add_assoc, ← byteLength_append]
    rcases kind_eq_none hk with rfl | rfl | rfl
    · exact (ih (Nat.le_refl _) hrest hbehind).layout (layout_gap hl.spells_lexeme)
    · exact tiled_lineComment hl hrest hfits ih
    · exact (ih (Nat.le_refl _) hrest hbehind).layout (layout_block hl.spells_lexeme)
  · intro pos s l rest k ts hl hk hts hfits
    rw [byteLength_append, ← Nat.add_assoc] at hfits
    rw [Span.between_of_le (by omega) (by omega)]
    exact @Tiled.token pos k [] l rest ts .nil (hl.munch hk) (hts hfits)

end

end Lexer

/-- The tokens of a text whose offsets spans can hold stand in order up to its end, and layout and their
    lexemes make it up. -/
theorem lex_tiles {source : String} {ts : List Token} (h : lex source = .ok ts)
    (hfits : source.utf8ByteSize ≤ Span.maxOffset) : InOrder source.utf8ByteSize 0 ts ∧ Lexer.Tiled 0 source.toList ts := by
  refine ⟨lex_inOrder h hfits, Lexer.lexFrom_tiled h ?_⟩
  rwa [Nat.zero_add, Lexer.byteLength_toList]

/-- Neighbours that other cuts of the text would part. -/
theorem lex_tiles_neighbours : ∃ ts, lex "in===1./'ñ'/*/*/.5e+2//e" = .ok ts ∧
    InOrder 25 0 ts ∧ Lexer.Tiled 0 "in===1./'ñ'/*/*/.5e+2//e".toList ts := by
  have hok : (lex "in===1./'ñ'/*/*/.5e+2//e").isOk = true := by decide +kernel
  cases h : lex "in===1./'ñ'/*/*/.5e+2//e" with
  | error e =>
    rw [h] at hok
    cases hok
  | ok ts => exact ⟨ts, rfl, lex_tiles h (by decide)⟩

end Treewalk
