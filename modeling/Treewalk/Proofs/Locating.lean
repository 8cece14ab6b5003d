/-
  Treewalk.Proofs.Locating — where a text is that has no tokens, the error says.

  `Boundary cs n`: the first `n` bytes of a text are whole characters. An error is `Located` if its span
  runs from boundary to boundary and the text it carries stands there. Escapes with braces are cut one
  byte short if the brace is closed, so the error ends inside the last character before the brace if that
  has several bytes (`Severed`).

  Proved: in a source whose offsets spans can hold, errors lie inside, are not empty and start at a
  boundary, and they are located unless they are severed (`lex_error_located`).
-/

import Treewalk.Proofs.Escapes
import Treewalk.Proofs.Tiling

namespace Treewalk

namespace Escape

open Lexer (byteLength_cons byteLength_append)

/-! ## Boundaries -/

/-- The first `n` bytes are whole characters. -/
def Boundary (cs : List Char) (n : Nat) : Prop := ∃ front back, cs = front ++ back ∧ byteLength front = n

section
variable {c : Char} {cs front back : List Char} {n k : Nat}

theorem boundary_append (front back : List Char) : Boundary (front ++ back) (byteLength front) := ⟨front, back, rfl, rfl⟩

theorem boundary_cons (h : Boundary (c :: cs) n) : n = 0 ∨ ∃ m, n = c.utf8Size + m ∧ Boundary cs m := by
  obtain ⟨front, back, hcs, rfl⟩ := h
  cases front with
  | nil => exact .inl rfl
  | cons d front =>
    cases hcs
    exact .inr ⟨_, rfl, front, back, rfl, rfl⟩

/-- There is no boundary inside a character. -/
theorem not_boundary_within (hpos : 0 < k) (hlt : k < c.utf8Size) :
    ¬ Boundary (front ++ c :: back) (byteLength front + k) := by
  induction front with
  | nil =>
    intro h
    rcases boundary_cons h with h | ⟨m, hm, -⟩
    · simp [byteLength] at h
      omega
    · simp [byteLength] at hm
      omega
  | cons d front ih =>
    intro h
    rw [byteLength_cons] at h
    rcases boundary_cons h with h | ⟨m, hm, hrest⟩
    · have := d.utf8Size_pos
      omega
    · exact ih ((show m = byteLength front + k by omega) ▸ hrest)

/-- Up to a boundary characters can be taken, and only there. -/
theorem takeBytes?_append (front back : List Char) : takeBytes? (byteLength front) (front ++ back) = some front := by
  induction front with
  | nil => simp [takeBytes?, byteLength]
  | cons c front ih =>
    have hpos := c.utf8Size_pos
    obtain ⟨m, hm⟩ : ∃ m, byteLength (c :: front) = m + 1 := ⟨byteLength (c :: front) - 1, by rw [byteLength_cons]; omega⟩
    have hrest : m + 1 - c.utf8Size = byteLength front := by rw [← hm, byteLength_cons]; omega
    have hfits : c.utf8Size ≤ m + 1 := by rw [← hm, byteLength_cons]; omega
    rw [hm, List.cons_append, takeBytes?, if_pos hfits, hrest, ih]
    rfl

theorem boundary_of_takeBytes? (h : takeBytes? n cs = some front) : Boundary cs n := by
  fun_induction takeBytes? n cs generalizing front with
  | case1 cs => exact boundary_append [] cs
  | case2 => cases h
  | case3 n c cs hfits ih =>
    obtain ⟨front, hfront, -⟩ := Option.map_eq_some_iff.mp h
    obtain ⟨front, back, rfl, hlen⟩ := ih hfront
    exact ⟨c :: front, back, rfl, by rw [byteLength_cons]; omega⟩
  | case4 => cases h

end

/-! ## Malformed escapes -/

/-- What an escape at the front of the text is short of: the braces are closed, and the last character
    before the closing one takes several bytes. -/
def Severed (text : List Char) (bytes : Nat) : Prop :=
  ∃ inner c rest, text = '\\' :: 'u' :: '\x7b' :: (inner ++ c :: '\x7d' :: rest) ∧ '\x7d' ∉ inner ∧
    byteLength (inner ++ [c]) ≤ 6 ∧ 1 < c.utf8Size ∧ bytes = 2 + byteLength (inner ++ [c])

section
variable {n bytes pos : Nat} {e : Char} {rest text body : List Char}

theorem byteLength_brace (inner : List Char) : byteLength ('\\' :: 'u' :: '\x7b' :: inner) = 3 + byteLength inner := by
  simp only [byteLength_cons, ← Nat.add_assoc]
  rfl

theorem Severed.append (h : Severed text bytes) (tail : List Char) : Severed (text ++ tail) bytes := by
  obtain ⟨inner, c, rest, rfl, hinner, hlen, hc, rfl⟩ := h
  exact ⟨inner, c, rest ++ tail, by simp, hinner, hlen, hc, rfl⟩

theorem Severed.bytes_lt (h : Severed text bytes) : 0 < bytes ∧ bytes < byteLength text := by
  obtain ⟨inner, c, rest, rfl, -, -, -, rfl⟩ := h
  rw [byteLength_brace]
  simp only [byteLength_append, byteLength_cons, Lexer.byteLength_nil]
  have hbrace : Char.utf8Size '\x7d' = 1 := rfl
  omega

/-- The end is inside the last character. -/
theorem Severed.not_boundary (h : Severed text bytes) (front : List Char) :
    ¬ Boundary (front ++ text) (byteLength front + bytes) := by
  obtain ⟨inner, c, rest, rfl, -, -, hc, rfl⟩ := h
  have hwithin : ¬ Boundary ((front ++ '\\' :: 'u' :: '\x7b' :: inner) ++ c :: '\x7d' :: rest)
      (byteLength (front ++ '\\' :: 'u' :: '\x7b' :: inner) + (c.utf8Size - 1)) :=
    not_boundary_within (by omega) (by omega)
  have hbytes : byteLength (front ++ '\\' :: 'u' :: '\x7b' :: inner) + (c.utf8Size - 1) =
      byteLength front + (2 + byteLength (inner ++ [c])) := by
    have hlast : byteLength [c] = c.utf8Size := rfl
    simp only [byteLength_append, byteLength_brace, hlast]
    omega
  rw [hbytes, List.append_assoc] at hwithin
  simpa using hwithin

/-- A part of the text that is not empty, of so many bytes. -/
def Part (text : List Char) (bytes : Nat) : Prop := ∃ bad tail, text = bad ++ tail ∧ bad ≠ [] ∧ byteLength bad = bytes

theorem fixed_error (h : fixed n rest = .error bytes) :
    ∃ ds tail, rest = ds ++ tail ∧ (∀ d ∈ ds, isHexDigit d = true) ∧ bytes = 2 + ds.length := by
  have hbytes : bytes = 2 + ((rest.take n).takeWhile isHexDigit).length := by
    unfold fixed at h
    dsimp only at h
    split at h
    · rename_i hlen
      split at h
      · cases h
      · cases h
        rw [hlen]
    · cases h
      rfl
  obtain ⟨tail, htail⟩ := (List.takeWhile_prefix (l := rest.take n) isHexDigit).trans (List.take_prefix n rest)
  exact ⟨_, tail, htail.symm, fun d hd => List.mem_takeWhile_imp hd, hbytes⟩

theorem braced_error (h : braced rest = .error bytes) :
    Part ('\\' :: 'u' :: '\x7b' :: rest) bytes ∨ Severed ('\\' :: 'u' :: '\x7b' :: rest) bytes := by
  unfold braced at h
  dsimp only at h
  split at h
  · cases h
    refine .inl ⟨'\\' :: 'u' :: '\x7b' :: rest.takeWhile (· ≠ '\x7d'), rest.dropWhile (· ≠ '\x7d'), ?_, List.cons_ne_nil _ _,
      byteLength_brace _⟩
    simp only [List.cons_append, List.takeWhile_append_dropWhile]
  · rename_i hbounds
    obtain ⟨hclosed, hne, hlen⟩ := by simpa only [not_or] using hbounds
    split at h
    · cases h
    · cases h
      obtain ⟨tail, htail⟩ := takeWhile_closed hclosed
      obtain ⟨inner, c, hinner⟩ : ∃ inner c, rest.takeWhile (· ≠ '\x7d') = inner ++ [c] :=
        ⟨_, _, (List.dropLast_append_getLast hne).symm⟩
      have hbrace : '\x7d' ∉ inner := by
        intro hmem
        have hmem' : '\x7d' ∈ rest.takeWhile (· ≠ '\x7d') := hinner ▸ List.mem_append_left _ hmem
        simpa using List.mem_takeWhile_imp hmem'
      rw [hinner] at hlen htail ⊢
      rw [htail]
      by_cases hc : 1 < c.utf8Size
      · exact .inr ⟨inner, c, tail, by simp, hbrace, by omega, hc, rfl⟩
      · -- One byte short is one character short.
        have hpos := c.utf8Size_pos
        have hlast : byteLength [c] = c.utf8Size := rfl
        refine .inl ⟨'\\' :: 'u' :: '\x7b' :: inner, c :: '\x7d' :: tail, by simp, List.cons_ne_nil _ _, ?_⟩
        rw [byteLength_brace, byteLength_append]
        omega

/-- What is at fault in a malformed escape. -/
theorem read_error (h : read e rest = .error bytes) : Part ('\\' :: e :: rest) bytes ∨ Severed ('\\' :: e :: rest) bytes := by
  have hfixed {n : Nat} (he : e.utf8Size = 1) (h : fixed n rest = .error bytes) : Part ('\\' :: e :: rest) bytes := by
    obtain ⟨ds, tail, rfl, hds, rfl⟩ := fixed_error h
    refine ⟨'\\' :: e :: ds, tail, rfl, List.cons_ne_nil _ _, ?_⟩
    rw [byteLength_cons, byteLength_cons, byteLength_of_isHexDigit hds, he, ← Nat.add_assoc]
    rfl
  unfold read at h
  split at h
  case h_8 => exact .inl (hfixed rfl h)
  case h_9 =>
    split at h
    · exact braced_error h
    · exact .inl (hfixed rfl h)
  all_goals cases h

theorem malformed_part (pos : Nat) (bad tail : List Char) :
    malformed pos (bad ++ tail) (byteLength bad) = ⟨pos, pos + byteLength bad, String.ofList bad⟩ := by
  have hmin : min (byteLength bad) (byteLength (bad ++ tail)) = byteLength bad := by
    rw [byteLength_append]
    omega
  simp only [malformed, hmin, takeBytes?_append, Option.getD_some]

/-- Only the backslash is left to show. -/
theorem Severed.malformed_eq (h : Severed text bytes) (pos : Nat) : malformed pos text bytes = ⟨pos, pos + bytes, "\\"⟩ := by
  have hmin : min bytes (byteLength text) = bytes := Nat.min_eq_left h.bytes_lt.2.le
  have hnone : takeBytes? bytes text = none := by
    cases htake : takeBytes? bytes text with
    | none => rfl
    | some front =>
      refine absurd (boundary_of_takeBytes? htake) ?_
      simpa [byteLength] using h.not_boundary []
  simp only [malformed, hmin, hnone, Option.getD_none]

/-- The malformed escape is what the text goes on with behind what was decoded. -/
theorem decodeFrom_error {m : Malformed} (h : decodeFrom pos body = .error m) :
    ∃ before text bytes, body = before ++ text ∧ m = malformed (pos + byteLength before) text bytes ∧
      (Part text bytes ∨ Severed text bytes) := by
  fun_induction decodeFrom pos body with
  | case1 => cases h
  | case2 pos e rest bytes hread =>
    cases h
    exact ⟨[], _, bytes, rfl, rfl, read_error hread⟩
  | case3 pos e rest c n hread ih =>
    obtain ⟨before, text, bytes, hdrop, rfl, hfault⟩ := ih (of_map_error h)
    refine ⟨'\\' :: e :: (rest.take n ++ before), text, bytes, ?_, ?_, hfault⟩
    · rw [List.cons_append, List.cons_append, List.append_assoc, ← hdrop, List.take_append_drop]
    · have hslash : Char.utf8Size '\\' = 1 := rfl
      rw [byteLength_cons, byteLength_cons, byteLength_append, hslash]
      congr 1
      omega
  | case4 pos c rest hpair ih =>
    obtain ⟨before, text, bytes, rfl, rfl, hfault⟩ := ih (of_map_error h)
    exact ⟨c :: before, text, bytes, rfl, by rw [byteLength_cons, Nat.add_assoc], hfault⟩

end

end Escape

open Escape (byteLength Boundary)
open Lexer (byteLength_cons byteLength_append)

/-! ## Errors in a source -/

namespace LexError

/-- The error is at a text that is not empty, from boundary to boundary, and if it carries a text, then
    this one. -/
def Located (e : LexError) (source : List Char) : Prop :=
  ∃ text, text ≠ [] ∧ e.span.Cuts source text ∧
    ∀ t, e.cause = .invalidNumber t ∨ e.cause = .invalidEscape t → t = String.ofList text

/-- The error is at an escape with closed braces, and ends inside the last character in these. -/
def Severed (e : LexError) (source : List Char) : Prop :=
  ∃ front text bytes, source = front ++ text ∧ Escape.Severed text bytes ∧
    e = ⟨.invalidEscape "\\", ⟨byteLength front, byteLength front + bytes⟩⟩

end LexError

namespace Lexer

section
variable {pos n : Nat} {c : Char} {cs text before : List Char} {s : Shape} {span : Span} {e : LexError}

/-- What is wrong with a lexeme is the whole of it, or an escape in it. -/
theorem kind_error (h : kind s (c :: cs) span = .error e) :
    (e.span = span ∧ ∀ t, e.cause = .invalidNumber t ∨ e.cause = .invalidEscape t → t = String.ofList (c :: cs)) ∨
    s = .string ∧ ∃ m, Escape.decode cs.dropLast = .error m ∧
      e = ⟨.invalidEscape m.text, ⟨Span.clamp (span.start + 1 + m.start), Span.clamp (span.start + 1 + m.stop)⟩⟩ := by
  unfold kind at h
  cases s with
  | string =>
    cases hd : Escape.decode cs.dropLast with
    | ok text =>
      simp only [List.drop_succ_cons, List.drop_zero, hd] at h
      cases h
    | error m =>
      simp only [List.drop_succ_cons, List.drop_zero, hd] at h
      cases h
      exact .inr ⟨rfl, m, rfl, rfl⟩
  | hexNumber | number =>
    dsimp only at h
    split at h
    · cases h
    · cases h
      exact .inl ⟨rfl, by simp⟩
  | malformedNumber | openComment | openString | stray =>
    cases h
    exact .inl ⟨rfl, by simp⟩
  | _ => cases h

theorem quote_of_shape (h : shape c cs = (.string, n)) : c = '"' ∨ c = '\'' := by
  rcases shape_longest c cs with hlongest | ⟨hstray, -⟩
  · have hspells := hlongest.spells
    rw [h] at hspells
    generalize hl : (c :: cs).take n = l at hspells
    cases hspells with
    | string hq _ =>
      cases n with
      | zero => cases hl
      | succ n =>
        obtain ⟨rfl, -⟩ := List.cons.inj hl
        exact hq
  · rw [h] at hstray
    cases hstray

/-- The place of an error in a string literal is that of the escape in the source. -/
theorem string_error {m : Escape.Malformed} {body after : List Char} (hc : c = '"' ∨ c = '\'')
    (h : Escape.decode body = .error m) (hfits : byteLength (before ++ c :: (body ++ after)) ≤ Span.maxOffset)
    (he : e = ⟨.invalidEscape m.text,
      ⟨Span.clamp (byteLength before + 1 + m.start), Span.clamp (byteLength before + 1 + m.stop)⟩⟩) :
    e.Located (before ++ c :: (body ++ after)) ∨ e.Severed (before ++ c :: (body ++ after)) := by
  subst he
  obtain ⟨decoded, text, bytes, rfl, rfl, hfault⟩ := Escape.decodeFrom_error h
  have hsource : before ++ c :: (decoded ++ text ++ after) = (before ++ c :: decoded) ++ (text ++ after) := by simp
  have hfront : byteLength (before ++ c :: decoded) = byteLength before + 1 + byteLength decoded := by
    have hquote : c.utf8Size = 1 := by rcases hc with rfl | rfl <;> rfl
    rw [byteLength_append, byteLength_cons, hquote, Nat.add_assoc]
  -- What is at fault stands inside the text, so its offsets are not cut.
  have hplace (hle : bytes ≤ byteLength text) :
      Span.clamp (byteLength before + 1 + byteLength decoded) = byteLength (before ++ c :: decoded) ∧
      Span.clamp (byteLength before + 1 + (byteLength decoded + bytes)) = byteLength (before ++ c :: decoded) + bytes := by
    rw [hsource, byteLength_append _ (text ++ after), byteLength_append text] at hfits
    rw [← Nat.add_assoc, ← hfront]
    exact ⟨Span.clamp_of_le (by omega), Span.clamp_of_le (by omega)⟩
  rw [hsource, Nat.zero_add]
  rcases hfault with ⟨bad, tail, rfl, hne, rfl⟩ | hsevered
  · obtain ⟨hstart, hstop⟩ := hplace (by rw [byteLength_append]; omega)
    refine .inl ⟨bad, hne, ⟨before ++ c :: decoded, tail ++ after, by simp, ?_⟩, ?_⟩
    · rw [Escape.malformed_part, hstart, hstop]
    · rintro t (ht | ht)
      · cases ht
      · cases ht
        rw [Escape.malformed_part]
  · obtain ⟨hstart, hstop⟩ := hplace hsevered.bytes_lt.2.le
    refine .inr ⟨before ++ c :: decoded, text ++ after, bytes, rfl, hsevered.append after, ?_⟩
    rw [hsevered.malformed_eq, hstart, hstop]

/-- By induction along the lexemes, `before` being what is passed. -/
theorem lexFrom_error (h : lexFrom pos text = .error e) (hpos : byteLength before = pos)
    (hfits : byteLength (before ++ text) ≤ Span.maxOffset) :
    e.Located (before ++ text) ∨ e.Severed (before ++ text) := by
  fun_induction lexFrom pos text generalizing before with
  | case1 => cases h
  | case2 pos c cs s n hshape lexeme next span e' =>
    rename_i hkind
    cases h
    have hsplit : lexeme ++ cs.drop (n - 1) = c :: cs := by rw [List.cons_append, List.take_append_drop]
    have hspan : span = ⟨pos, pos + byteLength lexeme⟩ := by
      rw [← hsplit, byteLength_append, byteLength_append] at hfits
      exact Span.between_of_le (by omega) (by dsimp only [next]; omega)
    rcases kind_error hkind with ⟨he, htext⟩ | ⟨rfl, m, hm, he⟩
    · exact .inl ⟨lexeme, List.cons_ne_nil _ _, ⟨before, cs.drop (n - 1), by rw [hsplit], by rw [he, hspan, hpos]⟩, htext⟩
    · obtain ⟨after, hafter⟩ := (List.dropLast_prefix (cs.take (n - 1))).trans (List.take_prefix _ cs)
      rw [← hafter] at hfits ⊢
      rw [hspan, ← hpos] at he
      exact string_error (quote_of_shape hshape) hm hfits he
  | case3 pos c cs s n hshape lexeme next span hkind =>
    rename_i ih
    have hsplit : before ++ c :: cs = (before ++ lexeme) ++ cs.drop (n - 1) := by simp [lexeme]
    rw [hsplit] at hfits ⊢
    exact ih h (by rw [byteLength_append, hpos]) hfits
  | case4 pos c cs s n hshape lexeme next span k hkind =>
    rename_i ih
    have hsplit : before ++ c :: cs = (before ++ lexeme) ++ cs.drop (n - 1) := by simp [lexeme]
    rw [hsplit] at hfits ⊢
    exact ih (of_map_error h) (by rw [byteLength_append, hpos]) hfits

end

end Lexer

namespace LexError

variable {e : LexError} {source : List Char}

theorem Located.inside (h : e.Located source) : e.span.start < e.span.stop ∧ e.span.stop ≤ byteLength source ∧
    Boundary source e.span.start ∧ Boundary source e.span.stop := by
  obtain ⟨text, hne, ⟨front, back, rfl, hspan⟩, -⟩ := h
  have hpos : 0 < byteLength text := by
    obtain ⟨c, cs, rfl⟩ := List.exists_cons_of_ne_nil hne
    exact Nat.add_pos_left c.utf8Size_pos _
  rw [hspan]
  refine ⟨by dsimp only; omega, ?_, Escape.boundary_append front _, ?_⟩
  · simp only [byteLength_append]
    omega
  · rw [← List.append_assoc, ← byteLength_append]
    exact Escape.boundary_append _ back

theorem Severed.inside (h : e.Severed source) : e.span.start < e.span.stop ∧ e.span.stop ≤ byteLength source ∧
    Boundary source e.span.start ∧ ¬ Boundary source e.span.stop := by
  obtain ⟨front, text, bytes, rfl, hsevered, rfl⟩ := h
  obtain ⟨hpos, hlt⟩ := hsevered.bytes_lt
  refine ⟨Nat.lt_add_of_pos_right hpos, ?_, Escape.boundary_append front text, hsevered.not_boundary front⟩
  rw [byteLength_append]
  exact Nat.add_le_add_left hlt.le _

end LexError

/-- An error lies inside the source, is not empty and starts at a boundary. It ends at one, and carries
    the text that stands there, exactly if it is not severed. -/
theorem lex_error_located {source : String} {e : LexError} (h : lex source = .error e)
    (hfits : source.utf8ByteSize ≤ Span.maxOffset) :
    e.span.start < e.span.stop ∧ e.span.stop ≤ source.utf8ByteSize ∧ Boundary source.toList e.span.start ∧
      (Boundary source.toList e.span.stop ↔ ¬ e.Severed source.toList) ∧
      (e.Located source.toList ↔ ¬ e.Severed source.toList) := by
  rw [← Lexer.byteLength_toList] at hfits ⊢
  have hfault : e.Located ([] ++ source.toList) ∨ e.Severed ([] ++ source.toList) := Lexer.lexFrom_error h rfl hfits
  rcases hfault with hlocated | hsevered
  · obtain ⟨hlt, hle, hstart, hstop⟩ := hlocated.inside
    have hnot : ¬ e.Severed source.toList := fun hsevered => hsevered.inside.2.2.2 hstop
    exact ⟨hlt, hle, hstart, iff_of_true hstop hnot, iff_of_true hlocated hnot⟩
  · obtain ⟨hlt, hle, hstart, hstop⟩ := hsevered.inside
    have hnot : ¬ e.Located source.toList := fun hlocated => hstop hlocated.inside.2.2.2
    exact ⟨hlt, hle, hstart, iff_of_false hstop (not_not_intro hsevered), iff_of_false hnot (not_not_intro hsevered)⟩

/-- A number that is no code point. -/
theorem lex_error_located_escape :
    let source := "/* é */ '\\x41\\u\x7b110000\x7d'"
    let e : LexError := ⟨.invalidEscape "\\u\x7b11000", ⟨14, 22⟩⟩
    lex source = .error e ∧ e.span.start < e.span.stop ∧ e.span.stop ≤ source.utf8ByteSize ∧ e.Located source.toList := by
  intro source e
  have hread : lex source = .error e := by decide +kernel
  have hwhole : ¬ e.Severed source.toList := by
    rintro ⟨front, text, bytes, -, -, he⟩
    simp [e] at he
  obtain ⟨hlt, hle, -, -, hlocated⟩ := lex_error_located hread (by decide +kernel)
  exact ⟨hread, hlt, hle, hlocated.mpr hwhole⟩

/-- The end of what is reported is the second byte of the character between the braces. -/
theorem lex_error_severed :
    let source := "'\\u\x7bé\x7d'"
    ∃ e, lex source = .error e ∧ ¬ Boundary source.toList e.span.stop ∧ ¬ e.Located source.toList := by
  intro source
  let e : LexError := ⟨.invalidEscape "\\", ⟨1, 5⟩⟩
  have hread : lex source = .error e := by decide +kernel
  have hsevered : e.Severed source.toList := by
    refine ⟨['\''], ['\\', 'u', '\x7b', 'é', '\x7d', '\''], 4, by decide +kernel, ⟨[], 'é', ['\''], rfl, by simp, ?_⟩, rfl⟩
    decide
  exact ⟨e, hread, hsevered.inside.2.2.2, fun hlocated => hsevered.inside.2.2.2 hlocated.inside.2.2.2⟩

end Treewalk
