/-
  Treewalk.Proofs.StringBytes — string literals byte by byte.

  `scanString` goes through the bytes of a text from an opening quote on. Behind a backslash it goes two bytes
  on, though the character that is escaped may take up to four; so it can come to stand inside a character.
  The bytes that follow there are none of those it looks for (`encode_cases`), so that it goes on
  to the end of the character.

  Proved: it finds what the scan by characters finds (`scanString_append`), so it stops between characters,
  behind the first quote that is not escaped on the line if there is one (`stringLength_closed`,
  `closed_of_stringLength`); and what stands in front of this quote never ends in a backslash without a
  character, so that it makes no difference what such a backslash is decoded as (`decodeOr_eq`). Together
  `scanString_spec`.
-/

import Treewalk.Proofs.Locating

namespace Treewalk

namespace Lexer

open Escape (byteLength Boundary boundary_append)

/-! ## The scan -/

def isLineBreak (byte : UInt8) : Bool := byte == 0x0a || byte == 0x0d

/-- The scan of a string body from the byte `len` on: whether its quote is found, and where it stops. -/
def scanString (quote : UInt8) (rest : List UInt8) (len : Nat) : Bool × Nat :=
  match h : rest[len]? with
  | none => (false, len)
  | some byte =>
    have : len < rest.length := (List.getElem?_eq_some_iff.mp h).1
    if isLineBreak byte then (false, len)
    else if byte = 0x5c then
      if rest[len + 1]?.all isLineBreak then (false, len + 1) else scanString quote rest (len + 2)
    else if byte = quote then (true, len + 1)
    else scanString quote rest (len + 1)
termination_by rest.length - len

section
variable {quote b : UInt8} {pre bs post : List UInt8}

theorem scanString_of_none {rest : List UInt8} {len : Nat} (h : rest[len]? = none) :
    scanString quote rest len = (false, len) := by
  rw [scanString]
  split
  · rfl
  · rename_i hsome
    cases h.symm.trans hsome

theorem scanString_of_some {rest : List UInt8} {len : Nat} (h : rest[len]? = some b) : scanString quote rest len =
    if isLineBreak b then (false, len)
    else if b = 0x5c then if rest[len + 1]?.all isLineBreak then (false, len + 1) else scanString quote rest (len + 2)
    else if b = quote then (true, len + 1)
    else scanString quote rest (len + 1) := by
  rw [scanString]
  split
  · rename_i hnone
    cases h.symm.trans hnone
  · rename_i hsome
    cases h.symm.trans hsome
    rfl

theorem getElem?_at : (pre ++ b :: post)[pre.length]? = some b := by simp

theorem getElem?_behind : (pre ++ b :: post)[pre.length + 1]? = post.head? := by
  have hindex : pre.length + 1 - pre.length = 1 := by omega
  rw [List.getElem?_append_right (by omega), hindex, List.getElem?_cons_succ, List.head?_eq_getElem?]

/-- The byte is none of those that the scan looks for. -/
def Passed (quote b : UInt8) : Prop := isLineBreak b = false ∧ b ≠ 0x5c ∧ b ≠ quote

theorem scanString_passed (pre post : List UInt8) (hbs : ∀ b ∈ bs, Passed quote b) :
    scanString quote (pre ++ (bs ++ post)) pre.length =
      scanString quote (pre ++ (bs ++ post)) (pre.length + bs.length) := by
  induction bs generalizing pre with
  | nil => rfl
  | cons b bs ih =>
    obtain ⟨⟨hbreak, hslash, hquote⟩, hbs⟩ := List.forall_mem_cons.mp hbs
    have hrest := ih (pre ++ [b]) hbs
    rw [List.append_assoc, List.length_append, List.length_singleton] at hrest
    rw [List.cons_append, scanString_of_some getElem?_at, hbreak, if_neg Bool.false_ne_true, if_neg hslash,
      if_neg hquote, List.length_cons, Nat.add_comm bs.length, ← Nat.add_assoc]
    exact hrest

/-- Behind a backslash the scan goes over the first byte of the character and then over its other bytes. -/
theorem scanString_pair (hb : isLineBreak b = false) (hbs : ∀ b ∈ bs, Passed quote b) :
    scanString quote (pre ++ (0x5c :: b :: bs ++ post)) pre.length =
      scanString quote (pre ++ (0x5c :: b :: bs ++ post)) (pre.length + (0x5c :: b :: bs).length) := by
  have hrest := scanString_passed (pre ++ [0x5c, b]) post hbs
  rw [List.append_assoc, List.length_append] at hrest
  rw [List.cons_append, scanString_of_some getElem?_at, if_neg (by decide), if_pos rfl, getElem?_behind,
    List.cons_append, List.head?_cons, Option.all_some, hb, if_neg Bool.false_ne_true, List.length_cons, List.length_cons,
    Nat.add_assoc bs.length, Nat.add_comm bs.length, ← Nat.add_assoc]
  exact hrest

/-- A backslash that has no character to go with. -/
theorem scanString_backslash (hpost : post.head?.all isLineBreak = true) :
    scanString quote (pre ++ 0x5c :: post) pre.length = (false, pre.length + 1) := by
  rw [scanString_of_some getElem?_at, if_neg (by decide), if_pos rfl, getElem?_behind, if_pos hpost]

end

/-! ## Bytes of characters -/

/-- The bytes of a text. -/
def utf8 (cs : List Char) : List UInt8 := cs.flatMap String.utf8EncodeChar

section
variable {q c : Char} {cs ds : List Char}

theorem utf8_toList (s : String) : s.toByteArray.data.toList = utf8 s.toList := by
  conv_lhs => rw [← String.ofList_toList (s := s), String.toByteArray_ofList]
  exact List.toList_data_toByteArray

theorem utf8_cons : utf8 (c :: cs) = String.utf8EncodeChar c ++ utf8 cs := List.flatMap_cons

/-- A character of ASCII is its only byte; those of other characters are none of ASCII. -/
theorem encode_cases (c : Char) : (c.toNat < 0x80 ∧ String.utf8EncodeChar c = [c.toNat.toUInt8]) ∨
    0x80 ≤ c.toNat ∧ ∀ b ∈ String.utf8EncodeChar c, 0x80 ≤ b.toNat := by
  have hval : c.val.toNat = c.toNat := rfl
  unfold String.utf8EncodeChar
  simp only [hval]
  split
  · exact .inl ⟨by omega, rfl⟩
  · refine .inr ⟨by omega, ?_⟩
    split_ifs <;> simp <;> omega

theorem utf8EncodeChar_ascii (hc : c.toNat < 0x80) : String.utf8EncodeChar c = [c.toNat.toUInt8] := by
  rcases encode_cases c with ⟨-, h⟩ | ⟨h, -⟩
  · exact h
  · omega

/-- Different characters of ASCII are different bytes. -/
theorem toUInt8_ne {d : Char} (hc : c.toNat < 0x80) (hd : d.toNat < 0x80) (hne : c ≠ d) :
    c.toNat.toUInt8 ≠ d.toNat.toUInt8 := by
  intro h
  have hnat := congrArg UInt8.toNat h
  simp only [Nat.toUInt8_eq, UInt8.toNat_ofNat'] at hnat
  exact hne (Char.toNat_inj.mp (by omega))

/-- Only the byte of a line break is one. -/
theorem isLineBreak_eq_false (hc : c.toNat < 0x80) (hn : c ≠ '\n') (hr : c ≠ '\r') :
    isLineBreak c.toNat.toUInt8 = false := by
  have hn' := toUInt8_ne hc (by decide : '\n'.toNat < 0x80) hn
  have hr' := toUInt8_ne hc (by decide : '\r'.toNat < 0x80) hr
  simp only [isLineBreak, Bool.or_eq_false_iff, beq_eq_false_iff_ne]
  exact ⟨hn', hr'⟩

theorem passed_of_high {quote b : UInt8} (hquote : quote.toNat < 0x80) (hb : 0x80 ≤ b.toNat) : Passed quote b := by
  have hne (d : UInt8) (hd : d.toNat < 0x80) : b ≠ d := by
    rintro rfl
    omega
  refine ⟨?_, hne _ (by decide), hne _ hquote⟩
  simp only [isLineBreak, Bool.or_eq_false_iff, beq_eq_false_iff_ne]
  exact ⟨hne _ (by decide), hne _ (by decide)⟩

theorem quote_ascii (hq : q = '"' ∨ q = '\'') : q.toNat < 0x80 := by rcases hq with rfl | rfl <;> decide

/-- The scan looks for no byte of such a character. -/
theorem passed_of_plain (hq : q = '"' ∨ q = '\'') (hquote : c ≠ q) (hslash : c ≠ '\\') (hn : c ≠ '\n') (hr : c ≠ '\r') :
    ∀ b ∈ String.utf8EncodeChar c, Passed q.toNat.toUInt8 b := by
  rcases encode_cases c with ⟨hc, henc⟩ | ⟨-, hhigh⟩
  · rw [henc, List.forall_mem_singleton]
    exact ⟨isLineBreak_eq_false hc hn hr, toUInt8_ne hc (by decide : '\\'.toNat < 0x80) hslash,
      toUInt8_ne hc (quote_ascii hq) hquote⟩
  · intro b hb
    exact passed_of_high (by rcases hq with rfl | rfl <;> decide) (hhigh b hb)

/-- Behind a backslash only the first byte of a character can be one that the scan looks for. -/
theorem escaped_bytes (hq : q = '"' ∨ q = '\'') (hn : c ≠ '\n') (hr : c ≠ '\r') :
    ∃ b bs, String.utf8EncodeChar c = b :: bs ∧ isLineBreak b = false ∧ ∀ b ∈ bs, Passed q.toNat.toUInt8 b := by
  rcases encode_cases c with ⟨hc, henc⟩ | ⟨-, hhigh⟩
  · exact ⟨_, [], henc, isLineBreak_eq_false hc hn hr, List.forall_mem_nil _⟩
  · have hpassed : ∀ b ∈ String.utf8EncodeChar c, Passed q.toNat.toUInt8 b :=
      fun b hb => passed_of_high (by rcases hq with rfl | rfl <;> decide) (hhigh b hb)
    cases henc : String.utf8EncodeChar c with
    | nil => exact absurd henc String.utf8EncodeChar_ne_nil
    | cons b bs =>
      rw [henc, List.forall_mem_cons] at hpassed
      exact ⟨b, bs, rfl, hpassed.1.1, hpassed.2⟩

/-- By recursion along the characters; `pre` are the bytes that are passed. -/
theorem scanString_append (hq : q = '"' ∨ q = '\'') (cs : List Char) (pre : List UInt8) :
    scanString q.toNat.toUInt8 (pre ++ utf8 cs) pre.length =
      ((stringLength q cs).1, pre.length + byteLength (cs.take (stringLength q cs).2)) := by
  have hlength (c : Char) : (String.utf8EncodeChar c).length = c.utf8Size := String.length_utf8EncodeChar c
  have hslash : String.utf8EncodeChar '\\' = [0x5c] := rfl
  fun_induction stringLength q cs generalizing pre with
  | case1 => exact scanString_of_none (by simp [utf8])
  | case2 c cs hc =>
    rw [utf8_cons, hslash, List.singleton_append, scanString_backslash]
    · rfl
    · rcases hc with rfl | rfl <;> rfl
  | case3 c cs hc closed n h ih =>
    obtain ⟨hn, hr⟩ := not_or.mp hc
    obtain ⟨b, bs, henc, hb, hbs⟩ := escaped_bytes hq hn hr
    have hrest := ih (pre ++ 0x5c :: b :: bs)
    have hsize : bs.length + 1 = c.utf8Size := by rw [← hlength c, henc, List.length_cons]
    have hone : Char.utf8Size '\\' = 1 := rfl
    rw [h, List.append_assoc, List.length_append] at hrest
    rw [utf8_cons, utf8_cons, hslash, henc, List.singleton_append, ← List.cons_append, scanString_pair hb hbs, hrest]
    simp only [List.take_succ_cons, byteLength_cons, List.length_cons, hsize, hone]
    rw [Nat.add_comm c.utf8Size 1, Nat.add_assoc, Nat.add_assoc]
  | case4 c cs hne hc =>
    have hbreak : scanString q.toNat.toUInt8 (pre ++ utf8 (c :: cs)) pre.length = (false, pre.length) := by
      rcases hc with rfl | rfl <;>
      · rw [utf8_cons, utf8EncodeChar_ascii (by decide), List.singleton_append, scanString_of_some getElem?_at]
        rfl
    exact hbreak
  | case5 cs hpair hne =>
    have hbreak := isLineBreak_eq_false (quote_ascii hq) (not_or.mp hne).1 (not_or.mp hne).2
    have hne : q.toNat.toUInt8 ≠ 0x5c := by rcases hq with rfl | rfl <;> decide
    have hsize : q.utf8Size = 1 := by rcases hq with rfl | rfl <;> rfl
    rw [utf8_cons, utf8EncodeChar_ascii (quote_ascii hq), List.singleton_append, scanString_of_some getElem?_at, hbreak,
      if_neg Bool.false_ne_true, if_neg hne, if_pos rfl, List.take_succ_cons, byteLength_cons, hsize]
    rfl
  | case6 c cs hpair hne hc closed n h ih =>
    obtain ⟨hn, hr⟩ := not_or.mp hne
    by_cases hbackslash : c = '\\'
    · cases cs with
      | nil =>
        subst hbackslash
        cases h
        rw [utf8_cons, hslash, List.singleton_append, scanString_backslash rfl]
        rfl
      | cons d ds => exact absurd rfl (hpair d ds hbackslash)
    · have hrest := ih (pre ++ String.utf8EncodeChar c)
      rw [h, List.append_assoc, List.length_append, hlength] at hrest
      rw [utf8_cons, scanString_passed _ _ (passed_of_plain hq hc hbackslash hn hr), hlength, hrest, List.take_succ_cons,
        byteLength_cons, Nat.add_assoc]

end

/-! ## The first quote that is not escaped -/

/-- What can stand in front of a quote that is not escaped: characters of the line, where every backslash takes
    one along. Other quotes may be among them. -/
inductive Paired : List Char → Prop
  | nil : Paired []
  | plain {c : Char} {cs : List Char} : c ≠ '\\' → c ≠ '\n' → c ≠ '\r' → Paired cs → Paired (c :: cs)
  | pair {c : Char} {cs : List Char} : c ≠ '\n' → c ≠ '\r' → Paired cs → Paired ('\\' :: c :: cs)

section
variable {q : Char} {body after front rest cs : List Char}

theorem StringBody.paired (h : StringBody q body) : Paired body := by
  induction h with
  | nil => exact .nil
  | plain _ hslash hn hr _ ih => exact .plain hslash hn hr ih
  | pair hn hr _ ih => exact .pair hn hr ih

/-- Up to the first of the quotes it is the body of a string. -/
theorem Paired.first (h : Paired body) : ∃ first, StringBody q first ∧ first ++ [q] <+: body ++ [q] := by
  induction h with
  | nil => exact ⟨[], .nil, List.prefix_refl _⟩
  | @plain c cs hslash hn hr _ ih =>
    obtain ⟨first, hfirst, hpre⟩ := ih
    by_cases hc : c = q
    · subst hc
      exact ⟨[], .nil, List.cons_prefix_cons.mpr ⟨rfl, List.nil_prefix⟩⟩
    · exact ⟨c :: first, .plain hc hslash hn hr hfirst, List.cons_prefix_cons.mpr ⟨rfl, hpre⟩⟩
  | @pair c cs hn hr _ ih =>
    obtain ⟨first, hfirst, hpre⟩ := ih
    exact ⟨'\\' :: c :: first, .pair hn hr hfirst,
      List.cons_prefix_cons.mpr ⟨rfl, List.cons_prefix_cons.mpr ⟨rfl, hpre⟩⟩⟩

/-- The last backslash has a character, or it is part of a pair itself. -/
theorem Paired.append_backslash (hfront : Paired front) : ¬ Paired (front ++ ['\\']) := by
  induction hfront with
  | nil =>
    intro h
    cases h with
    | plain hslash _ _ _ => exact hslash rfl
  | @plain c cs hslash _ _ _ ih =>
    rw [List.cons_append]
    intro h
    generalize cs ++ ['\\'] = ds at h ih
    cases h with
    | plain _ _ _ h => exact ih h
    | pair _ _ _ => exact hslash rfl
  | pair _ _ _ ih =>
    rw [List.cons_append, List.cons_append]
    intro h
    cases h with
    | plain hslash _ _ _ => exact hslash rfl
    | pair _ _ h => exact ih h

/-- The body of a string ends at the first quote that a text has behind a part like that. -/
theorem StringBody.length_le (hq : q = '"' ∨ q = '\'') (hb : StringBody q body) {body' after' : List Char}
    (hb' : Paired body') (h : body ++ q :: after = body' ++ q :: after') : body.length ≤ body'.length := by
  have hslash : q ≠ '\\' := by rcases hq with rfl | rfl <;> decide
  obtain ⟨first, hfirst, hpre⟩ := hb'.first (q := q)
  have hprefix : first ++ [q] <+: body ++ q :: after := by
    rw [h, List.append_cons body']
    exact hpre.trans (List.prefix_append _ _)
  have hle := hpre.length_le
  by_contra hlt
  refine hb.not_quote_prefix hslash hfirst (List.prefix_of_prefix_length_le hprefix (List.prefix_append _ _) ?_)
  simp only [List.length_append, List.length_singleton] at hle ⊢
  omega

/-- The scan finds the first quote that is not escaped, if the line has one. -/
theorem stringLength_closed (hq : q = '"' ∨ q = '\'') :
    (stringLength q cs).1 = true ↔ ∃ body after, cs = body ++ q :: after ∧ Paired body := by
  rcases stringLength_spec q cs with
    ⟨body, after, hlen, hcs, hb⟩ | ⟨body, tail, rest, hlen, hcs, hb, htail, hhalt, hrest⟩
  · exact ⟨fun _ => ⟨body, after, hcs, hb.paired⟩, fun _ => by rw [hlen]⟩
  · refine ⟨fun h => by simp [hlen] at h, ?_⟩
    rintro ⟨body', after', hcs', hb'⟩
    obtain ⟨first, hfirst, hpre⟩ := hb'.first (q := q)
    refine absurd (hpre.trans ?_) (hb.not_closed hq hfirst htail hhalt hrest)
    rw [← hcs, hcs', List.append_cons body' q after']
    exact List.prefix_append _ _

end

end Lexer

/-! ## Backslashes that have no character -/

namespace Escape

open Lexer (StringBody)

/-- Like `decodeFrom`, where a backslash at the end of the body, that has no character to go with, gives `lone`. -/
def decodeOr (lone : Except Malformed (List Char)) (pos : Nat) (body : List Char) : Except Malformed (List Char) :=
  match body with
  | [] => .ok []
  | ['\\'] => lone
  | '\\' :: e :: rest =>
    match read e rest with
    | .error bytes => .error (malformed pos body bytes)
    | .ok (c, n) =>
      (decodeOr lone (pos + 1 + e.utf8Size + byteLength (rest.take n)) (rest.drop n)).map (c :: ·)
  | c :: rest => (decodeOr lone (pos + c.utf8Size) rest).map (c :: ·)
termination_by body.length
decreasing_by all_goals simp only [List.length_cons, List.length_drop]; omega

/-- In `decodeFrom` this backslash stands for itself. -/
theorem decodeOr_backslash (pos : Nat) (body : List Char) : decodeOr (.ok ['\\']) pos body = decodeFrom pos body := by
  fun_induction decodeOr (.ok ['\\']) pos body with
  | case1 => rw [decodeFrom]
  | case2 pos => simp [decodeFrom, Except.map]
  | case3 pos e rest bytes hread => rw [decodeFrom, hread]
  | case4 pos e rest c n hread ih => rw [decodeFrom, hread, ih]
  | case5 pos c rest hlone hpair ih =>
    rw [decodeFrom, ih]
    exact hpair

/-- In the body of a string there is no such backslash. -/
theorem decodeOr_eq {q : Char} {body : List Char} (hb : StringBody q body) (lone : Except Malformed (List Char))
    (pos : Nat) : decodeOr lone pos body = decodeFrom pos body := by
  fun_induction decodeOr lone pos body with
  | case1 => rw [decodeFrom]
  | case2 pos =>
    cases hb with
    | plain _ hslash _ _ _ => exact absurd rfl hslash
  | case3 pos e rest bytes hread => rw [decodeFrom, hread]
  | case4 pos e rest c n hread ih =>
    have hrest : StringBody q (rest.take n ++ rest.drop n) := by
      rw [List.take_append_drop]
      cases hb with
      | plain _ hslash _ _ _ => exact absurd rfl hslash
      | pair _ _ hb => exact hb
    rw [decodeFrom, hread, ih (hrest.drop (read_sound hread).2.ne_backslash)]
  | case5 pos c rest hlone hpair ih =>
    rw [decodeFrom, ih]
    · cases hb with
      | plain _ _ _ _ hb => exact hb
      | pair _ _ _ => exact (hpair _ _ rfl rfl).elim
    · exact hpair

end Escape

namespace Lexer

open Escape (byteLength Boundary boundary_append decodeFrom decodeOr)

/-! ## String literals -/

/-- What the scan of a string finds: a quote that closes it, and the body in front of this quote. -/
structure Closed (q : Char) (cs body : List Char) (len : Nat) : Prop where
  /-- Nothing shorter stands in front of a quote that is not escaped on the line. -/
  first : ∀ body' after, cs = body' ++ q :: after → Paired body' → body.length ≤ body'.length
  /-- The scan ends just behind the quote. -/
  stop : len = byteLength (body ++ [q])
  paired : Paired body
  /-- The lexeme ends there, and without its quotes it is the body. -/
  shape : Lexer.shape q cs = (.string, (q :: body ++ [q]).length)
  handed : ((q :: cs.take ((Lexer.shape q cs).2 - 1)).drop 1).dropLast = body
  no_backslash : ∀ front, Paired front → body ≠ front ++ ['\\']
  decode : ∀ lone pos, decodeOr lone pos body = decodeFrom pos body

section
variable {q : Char}

theorem shape_quote (hq : q = '"' ∨ q = '\'') (cs : List Char) :
    shape q cs = (if (stringLength q cs).1 then .string else .openString, 1 + (stringLength q cs).2) := by
  rcases hq with rfl | rfl <;> rfl

theorem closed_of_stringLength (hq : q = '"' ∨ q = '\'') {cs : List Char} (h : (stringLength q cs).1 = true) :
    ∃ body after, cs = body ++ q :: after ∧ Closed q cs body (byteLength (cs.take (stringLength q cs).2)) := by
  rcases stringLength_spec q cs with ⟨body, after, hlen, rfl, hb⟩ | ⟨_, _, _, hlen, -⟩
  · have htake : (body ++ q :: after).take (body.length + 1) = body ++ [q] := by
      rw [List.append_cons]
      exact List.take_left' (by simp)
    have hshape : shape q (body ++ q :: after) = (.string, (q :: body ++ [q]).length) := by
      rw [shape_quote hq, hlen]
      simp
      omega
    refine ⟨body, after, rfl, ⟨fun body' after' h hb' => hb.length_le hq hb' h, by rw [hlen, htake], hb.paired,
      hshape, ?_, ?_, Escape.decodeOr_eq hb⟩⟩
    · have hcount : (q :: body ++ [q]).length - 1 = body.length + 1 := by simp
      rw [hshape, hcount, htake, List.drop_succ_cons, List.drop_zero, List.dropLast_concat]
    · rintro front hfront rfl
      exact hfront.append_backslash hb.paired
  · simp [hlen] at h

end

/-- The scan of the bytes of a text, from the first on. -/
def scanText (q : Char) (rest : String) : Bool × Nat := scanString q.toNat.toUInt8 rest.toByteArray.data.toList 0

section
variable (q : Char) (rest : String)

/-- Behind an opening quote, the scan of the bytes stops at a boundary of the text. It reports a quote if one
    stands on the line that is not escaped, and stops behind the first of these; a text in front of it is
    decoded, and has no backslash without a character. -/
theorem scanString_spec (hq : q = '"' ∨ q = '\'') :
    scanText q rest =
      ((stringLength q rest.toList).1, byteLength (rest.toList.take (stringLength q rest.toList).2)) ∧
    Boundary rest.toList (scanText q rest).2 ∧
    ((scanText q rest).1 = true ↔ ∃ body after, rest.toList = body ++ q :: after ∧ Paired body) ∧
    ((scanText q rest).1 = true →
      ∃ body after, rest.toList = body ++ q :: after ∧ Closed q rest.toList body (scanText q rest).2) := by
  have hscan : scanText q rest =
      ((stringLength q rest.toList).1, byteLength (rest.toList.take (stringLength q rest.toList).2)) := by
    have happend := scanString_append hq rest.toList []
    rwa [List.nil_append, List.length_nil, Nat.zero_add, ← utf8_toList] at happend
  have hboundary : Boundary rest.toList (byteLength (rest.toList.take (stringLength q rest.toList).2)) := by
    conv => arg 1; rw [← List.take_append_drop (stringLength q rest.toList).2 rest.toList]
    exact boundary_append _ _
  rw [hscan]
  exact ⟨rfl, hboundary, stringLength_closed hq, closed_of_stringLength hq⟩

/-- The quote between the plus signs is the first that is not escaped. Two bytes on from the first backslash is
    inside a character. -/
theorem scanString_accent :
    scanText '\'' "\\é\\\\\\' + ' + '" = (true, 11) ∧ ¬ Boundary "\\é\\\\\\' + ' + '".toList 2 := by
  have hrest : "\\é\\\\\\' + ' + '".toList =
      ['\\'] ++ 'é' :: ['\\', '\\', '\\', '\'', ' ', '+', ' ', '\'', ' ', '+', ' ', '\''] := by decide
  refine ⟨?_, hrest ▸ Escape.not_boundary_within (by decide : 0 < 1) (by decide)⟩
  rw [(scanString_spec '\'' "\\é\\\\\\' + ' + '" (.inr rfl)).1]
  decide

end

end Lexer

end Treewalk
