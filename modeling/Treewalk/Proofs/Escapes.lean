/-
  Treewalk.Proofs.Escapes — what the body of a string literal stands for.

  `Denotes plus cs c`: the text `cs` stands for the character `c`, as itself or as an escape. `Reads`
  puts a body together from such texts. With `plus`, a plus sign may stand in front of the digits between
  braces: those digits are read by a general reader of numbers, which takes a sign along.

  Proved: a body is decoded exactly if it is put together from characters and escapes, with that sign,
  and then to what these stand for; only a body with a sign behind a brace is decoded but not put
  together without one (`decode_reads`).
-/

import Mathlib.Data.List.Induction
import Mathlib.Tactic.IntervalCases
import Treewalk.Proofs.MaximalMunch
import Treewalk.Proofs.TokenOrder

namespace Treewalk

/-! ## What is mapped -/

section
variable {ε α β : Type} {f : α → β} {r : Except ε α}

theorem of_map_ok {b : β} (h : r.map f = .ok b) : ∃ a, r = .ok a ∧ f a = b := by
  cases r with
  | error e => cases h
  | ok a => exact ⟨a, rfl, Except.ok.inj h⟩

theorem of_map_error {e : ε} (h : r.map f = .error e) : r = .error e := by
  cases r with
  | error e' =>
    cases h
    rfl
  | ok a => cases h

end

/-- What is left of a string body behind characters that are no backslashes. -/
theorem Lexer.StringBody.drop {q : Char} {ds rest : List Char} (h : StringBody q (ds ++ rest)) (hds : ∀ d ∈ ds, d ≠ '\\') :
    StringBody q rest := by
  induction ds with
  | nil => exact h
  | cons d ds ih =>
    obtain ⟨hd, hds⟩ := List.forall_mem_cons.mp hds
    rw [List.cons_append] at h
    generalize hcs : ds ++ rest = cs at h
    cases h with
    | plain _ _ _ _ h => exact ih (hcs ▸ h) hds
    | pair _ _ _ => exact absurd rfl hd

namespace Escape

/-! ## Numbers of hexadecimal digits -/

/-- Hexadecimal digits, in either case, and the number they denote. -/
inductive Hex : List Char → Nat → Prop
  | nil : Hex [] 0
  | snoc {ds : List Char} {n v : Nat} {d : Char} : Hex ds n → v < 16 → d = v.digitChar ∨ d = v.digitChar.toUpper →
      Hex (ds ++ [d]) (16 * n + v)

theorem isHexDigit_iff {c : Char} : isHexDigit c = true ↔
    '0'.toNat ≤ c.toNat ∧ c.toNat ≤ '9'.toNat ∨ 'a'.toNat ≤ c.toNat ∧ c.toNat ≤ 'f'.toNat ∨
      'A'.toNat ≤ c.toNat ∧ c.toNat ≤ 'F'.toNat := by
  have hle (d e : Char) : d ≤ e ↔ d.toNat ≤ e.toNat := by
    rw [Char.le_def, UInt32.le_iff_toNat_le]
    rfl
  simp only [isHexDigit, Bool.or_eq_true, Bool.and_eq_true, decide_eq_true_eq, Char.isDigit_iff_toNat, hle, or_assoc]

theorem digit_of_isHexDigit {c : Char} (h : isHexDigit c = true) :
    hexValue c < 16 ∧ (c = (hexValue c).digitChar ∨ c = (hexValue c).digitChar.toUpper) := by
  have hc : c = Char.ofNat c.toNat := (Char.ofNat_toNat c).symm
  rw [isHexDigit_iff] at h
  generalize c.toNat = n at h hc
  subst hc
  simp only [Char.reduceToNat] at h
  rcases h with ⟨hlo, hhi⟩ | ⟨hlo, hhi⟩ | ⟨hlo, hhi⟩
  all_goals
    interval_cases n
    all_goals decide

theorem isHexDigit_of_digit {v : Nat} {c : Char} (hv : v < 16) (hc : c = v.digitChar ∨ c = v.digitChar.toUpper) :
    isHexDigit c = true ∧ hexValue c = v := by
  rcases hc with rfl | rfl
  all_goals
    interval_cases v
    all_goals decide

theorem hexNat_concat (ds : List Char) (d : Char) : hexNat (ds ++ [d]) = 16 * hexNat ds + hexValue d := by
  simp [hexNat, List.foldl_append]

theorem hex_iff {ds : List Char} {n : Nat} : Hex ds n ↔ (∀ d ∈ ds, isHexDigit d = true) ∧ hexNat ds = n := by
  constructor
  · intro h
    induction h with
    | nil => exact ⟨by simp, rfl⟩
    | snoc _ hv hd ih =>
      obtain ⟨hdigit, hvalue⟩ := isHexDigit_of_digit hv hd
      obtain ⟨hall, rfl⟩ := ih
      refine ⟨?_, by rw [hexNat_concat, hvalue]⟩
      simpa [or_imp, forall_and, hdigit] using hall
  · rintro ⟨hall, rfl⟩
    induction ds using List.reverseRecOn with
    | nil => exact .nil
    | append_singleton ds d ih =>
      obtain ⟨hds, hd⟩ := List.forall_mem_append.mp hall
      obtain ⟨hv, hdigit⟩ := digit_of_isHexDigit (hd d (by simp))
      rw [hexNat_concat]
      exact .snoc (ih hds) hv hdigit

theorem Hex.isHexDigit {ds : List Char} {n : Nat} (h : Hex ds n) : ∀ d ∈ ds, isHexDigit d = true := (hex_iff.mp h).1

theorem scalar?_eq_some {n : Nat} {c : Char} : scalar? n = some c ↔ n = c.toNat := by
  unfold scalar?
  constructor
  · intro h
    split at h
    · rename_i hvalid
      cases h
      rw [Char.ofNat, dif_pos hvalid]
      rfl
    · cases h
  · rintro rfl
    have hvalid : c.toNat.isValidChar := c.valid
    rw [if_pos hvalid, Char.ofNat_toNat]

/-- Digits take one byte each. -/
theorem byteLength_of_isHexDigit {ds : List Char} (h : ∀ d ∈ ds, isHexDigit d = true) : byteLength ds = ds.length := by
  induction ds with
  | nil => rfl
  | cons d ds ih =>
    obtain ⟨hd, hds⟩ := List.forall_mem_cons.mp h
    have hsize : d.utf8Size = 1 := by
      have hcode := isHexDigit_iff.mp hd
      simp only [Char.reduceToNat] at hcode
      have hascii : d.toNat ≤ 127 := by omega
      exact Char.utf8Size_eq_one_iff.mpr hascii
    rw [Lexer.byteLength_cons, ih hds, hsize, List.length_cons, Nat.add_comm]

/-! ## Escapes -/

/-- The letters of control characters, and these. -/
def controls : List (Char × Char) :=
  [('n', '\n'), ('t', '\t'), ('r', '\r'), ('b', '\x08'), ('f', '\x0c'), ('v', '\x0b'), ('0', '\x00')]

/-- What may stand in front of the digits between braces. -/
def Sign (plus : Bool) (cs : List Char) : Prop := cs = [] ∨ plus = true ∧ cs = ['+']

/-- The text of one character of a string: the character, or an escape. -/
inductive Denotes (plus : Bool) : List Char → Char → Prop
  | plain {c : Char} : c ≠ '\\' → Denotes plus [c] c
  | control {e c : Char} : (e, c) ∈ controls → Denotes plus ['\\', e] c
  | two {ds : List Char} {c : Char} : ds.length = 2 → Hex ds c.toNat → Denotes plus ('\\' :: 'x' :: ds) c
  | four {ds : List Char} {c : Char} : ds.length = 4 → Hex ds c.toNat → Denotes plus ('\\' :: 'u' :: ds) c
  | braced {sign ds : List Char} {c : Char} : Sign plus sign → ds ≠ [] → sign.length + ds.length ≤ 6 → Hex ds c.toNat →
      Denotes plus ('\\' :: 'u' :: '\x7b' :: (sign ++ ds ++ ['\x7d'])) c
  | itself {e : Char} : e ∉ controls.map (·.1) → e ≠ 'x' → e ≠ 'u' → Denotes plus ['\\', e] e

namespace Denotes

variable {plus plus' : Bool} {cs : List Char} {c : Char}

theorem plain_or_escape (h : Denotes plus cs c) : (cs = [c] ∧ c ≠ '\\') ∨ ∃ e ds, cs = '\\' :: e :: ds := by
  cases h with
  | plain hc => exact .inl ⟨rfl, hc⟩
  | _ => exact .inr ⟨_, _, rfl⟩

/-- Only the sign in front of the digits in braces depends on what may stand there. -/
theorem change_sign (h : Denotes plus cs c)
    (hsign : ∀ sign ds, cs = '\\' :: 'u' :: '\x7b' :: (sign ++ ds) → Sign plus sign → Sign plus' sign) : Denotes plus' cs c := by
  cases h with
  | plain hc => exact .plain hc
  | control hc => exact .control hc
  | two hlen hhex => exact .two hlen hhex
  | four hlen hhex => exact .four hlen hhex
  | braced hs hne hlen hhex => exact .braced (hsign _ _ (by rw [List.append_assoc]) hs) hne hlen hhex
  | itself hcontrol hx hu => exact .itself hcontrol hx hu

end Denotes

/-- Texts of characters one behind the other, and the string of these characters. -/
inductive Reads (plus : Bool) : List Char → List Char → Prop
  | nil : Reads plus [] []
  | cons {cs body text : List Char} {c : Char} : Denotes plus cs c → Reads plus body text →
      Reads plus (cs ++ body) (c :: text)

/-! ## Reading an escape -/

section
variable {n k : Nat} {c e : Char} {ds cs rest : List Char}

theorem fixed_eq_ok : fixed n rest = .ok (c, k) ↔ k = n ∧ (rest.take n).length = n ∧ Hex (rest.take n) c.toNat := by
  unfold fixed
  constructor
  · intro h
    dsimp only at h
    split at h
    · rename_i hlen
      have hall : (rest.take n).takeWhile isHexDigit = rest.take n :=
        (List.takeWhile_prefix _).eq_of_length_le (by rw [hlen]; exact List.length_take_le _ _)
      rw [hall] at h hlen
      split at h
      · rename_i c' hscalar
        cases h
        refine ⟨rfl, hlen, hex_iff.mpr ⟨fun d hd => ?_, scalar?_eq_some.mp hscalar⟩⟩
        rw [← hall] at hd
        exact List.mem_takeWhile_imp hd
      · cases h
    · cases h
  · rintro ⟨rfl, hlen, hhex⟩
    obtain ⟨hdigits, hvalue⟩ := hex_iff.mp hhex
    have hall : (rest.take k).takeWhile isHexDigit = rest.take k := List.takeWhile_eq_self_iff.mpr hdigits
    simp only [hall, hlen, if_true, hvalue, scalar?_eq_some.mpr rfl]

theorem codePoint?_eq_some : codePoint? cs = some n ↔ ∃ sign ds, cs = sign ++ ds ∧ Sign true sign ∧ ds ≠ [] ∧ Hex ds n := by
  have hsome (ds : List Char) : (if ds ≠ [] ∧ ds.all isHexDigit then some (hexNat ds) else none) = some n ↔
      ds ≠ [] ∧ Hex ds n := by
    rw [hex_iff]
    split
    · rename_i h
      simp_all
    · rename_i h
      simp_all
  by_cases hplus : ∃ ds, cs = '+' :: ds
  · obtain ⟨ds, rfl⟩ := hplus
    refine (hsome ds).trans ⟨fun ⟨hne, hhex⟩ => ⟨['+'], ds, rfl, .inr ⟨rfl, rfl⟩, hne, hhex⟩, ?_⟩
    rintro ⟨sign, ds', hcs, rfl | ⟨-, rfl⟩, hne, hhex⟩
    · -- A plus is no digit.
      rw [List.nil_append] at hcs
      cases hhex.isHexDigit '+' (by rw [← hcs]; exact List.mem_cons_self)
    · cases hcs
      exact ⟨hne, hhex⟩
  · have hcode : codePoint? cs = if cs ≠ [] ∧ cs.all isHexDigit then some (hexNat cs) else none := by
      unfold codePoint?
      dsimp only
      split
      · exact absurd ⟨_, rfl⟩ hplus
      · rfl
    rw [hcode]
    refine (hsome cs).trans ⟨fun ⟨hne, hhex⟩ => ⟨[], cs, rfl, .inl rfl, hne, hhex⟩, ?_⟩
    rintro ⟨sign, ds, rfl, rfl | ⟨-, rfl⟩, hne, hhex⟩
    · exact ⟨hne, hhex⟩
    · exact absurd ⟨ds, rfl⟩ hplus

/-- What stands between braces takes one byte for each character, and none of it is a brace. -/
theorem Sign.append_hex {sign : List Char} (hsign : Sign true sign) (hhex : Hex ds n) :
    byteLength (sign ++ ds) = sign.length + ds.length ∧ ∀ d ∈ sign ++ ds, d ≠ '\x7d' ∧ d ≠ '\\' := by
  have hds : ∀ d ∈ ds, d ≠ '\x7d' ∧ d ≠ '\\' := by
    intro d hd
    have hdigit := hhex.isHexDigit d hd
    constructor <;> rintro rfl <;> cases hdigit
  rw [Lexer.byteLength_append, byteLength_of_isHexDigit hhex.isHexDigit]
  rcases hsign with rfl | ⟨-, rfl⟩
  · exact ⟨rfl, hds⟩
  · exact ⟨rfl, List.forall_mem_cons.mpr ⟨by decide, hds⟩⟩

/-- Characters other than a closing brace stand in front of one, or are all. -/
theorem takeWhile_closed (h : (cs.takeWhile (· ≠ '\x7d')).length ≠ cs.length) :
    ∃ tail, cs = cs.takeWhile (· ≠ '\x7d') ++ '\x7d' :: tail := by
  have hsplit := List.takeWhile_append_dropWhile (p := fun c => decide (c ≠ '\x7d')) (l := cs)
  cases hdrop : cs.dropWhile (· ≠ '\x7d') with
  | nil =>
    rw [hdrop, List.append_nil] at hsplit
    exact absurd (congrArg List.length hsplit) h
  | cons d tail =>
    have hne : cs.dropWhile (· ≠ '\x7d') ≠ [] := by
      rw [hdrop]
      exact List.cons_ne_nil d tail
    have hd : d = '\x7d' := by
      have hhead := List.head_dropWhile_not (fun c => decide (c ≠ '\x7d')) hne
      simpa only [hdrop, List.head_cons, decide_eq_false_iff_not, not_not] using hhead
    rw [hdrop, hd] at hsplit
    exact ⟨tail, hsplit.symm⟩

/-- Up to a closing brace. -/
theorem braced_eq_ok : braced rest = .ok (c, k) ↔ ∃ sign ds tail, rest = sign ++ ds ++ '\x7d' :: tail ∧
    k = (sign ++ ds).length + 2 ∧ Sign true sign ∧ ds ≠ [] ∧ sign.length + ds.length ≤ 6 ∧ Hex ds c.toNat := by
  unfold braced
  constructor
  · intro h
    dsimp only at h
    split at h
    · cases h
    · rename_i hbounds
      obtain ⟨hclosed, -, hbytes⟩ := by simpa only [not_or] using hbounds
      split at h
      · rename_i c' hcode
        cases h
        obtain ⟨n, hn, hscalar⟩ := Option.bind_eq_some_iff.mp hcode
        obtain ⟨sign, ds, hinner, hsign, hne, hhex⟩ := codePoint?_eq_some.mp hn
        obtain rfl := scalar?_eq_some.mp hscalar
        rw [hinner, (hsign.append_hex hhex).1] at hbytes
        obtain ⟨tail, htail⟩ := takeWhile_closed hclosed
        rw [hinner] at htail ⊢
        exact ⟨sign, ds, tail, htail, rfl, hsign, hne, by omega, hhex⟩
      · cases h
  · rintro ⟨sign, ds, tail, rfl, rfl, hsign, hne, hlen, hhex⟩
    obtain ⟨hbytes, hbrace⟩ := hsign.append_hex hhex
    have hinner : (sign ++ ds ++ '\x7d' :: tail).takeWhile (· ≠ '\x7d') = sign ++ ds := by
      rw [List.takeWhile_append_of_pos (fun d hd => by simpa using (hbrace d hd).1), List.takeWhile_cons_of_neg (by simp),
        List.append_nil]
    have hcode : (codePoint? (sign ++ ds)).bind scalar? = some c :=
      Option.bind_eq_some_iff.mpr ⟨_, codePoint?_eq_some.mpr ⟨sign, ds, rfl, hsign, hne, hhex⟩, scalar?_eq_some.mpr rfl⟩
    have hbounds : ¬ ((sign ++ ds).length = (sign ++ ds ++ '\x7d' :: tail).length ∨ sign ++ ds = [] ∨
        6 < byteLength (sign ++ ds)) := by
      rintro (hopen | hnil | hbig)
      · simp at hopen
      · exact hne (List.append_eq_nil_iff.mp hnil).2
      · omega
    simp only [hinner, if_neg hbounds, hcode]

theorem read_sound (h : read e rest = .ok (c, k)) : k ≤ rest.length ∧ Denotes true ('\\' :: e :: rest.take k) c := by
  have hfixed {n : Nat} (h : fixed n rest = .ok (c, k)) : k ≤ rest.length ∧ (rest.take k).length = n ∧ Hex (rest.take k) c.toNat := by
    obtain ⟨rfl, hlen, hhex⟩ := fixed_eq_ok.mp h
    exact ⟨by rw [List.length_take] at hlen; omega, hlen, hhex⟩
  unfold read at h
  split at h
  case h_8 =>
    obtain ⟨hle, hlen, hhex⟩ := hfixed h
    exact ⟨hle, .two hlen hhex⟩
  case h_9 =>
    split at h
    · obtain ⟨sign, ds, tail, rfl, rfl, hsign, hne, hlen, hhex⟩ := braced_eq_ok.mp h
      have htake : ('\x7b' :: (sign ++ ds ++ '\x7d' :: tail)).take ((sign ++ ds).length + 2) =
          '\x7b' :: (sign ++ ds ++ ['\x7d']) := by
        rw [List.take_succ_cons, List.append_cons, List.take_left' (by rw [List.length_append, List.length_singleton])]
      rw [htake]
      refine ⟨?_, .braced hsign hne hlen hhex⟩
      simp only [List.length_cons, List.length_append]
      omega
    · obtain ⟨hle, hlen, hhex⟩ := hfixed h
      exact ⟨hle, .four hlen hhex⟩
  case h_10 hn ht hr hb hf hv h0 hx hu =>
    have hcontrol : e ∉ controls.map (·.1) := by
      simp only [controls, List.map_cons, List.map_nil, List.mem_cons, List.not_mem_nil, or_false, not_or]
      exact ⟨hn, ht, hr, hb, hf, hv, h0⟩
    cases h
    exact ⟨Nat.zero_le _, .itself hcontrol hx hu⟩
  all_goals
    cases h
    exact ⟨Nat.zero_le _, .control (by decide)⟩

theorem read_complete (h : Denotes true ('\\' :: e :: cs) c) (rest : List Char) :
    read e (cs ++ rest) = .ok (c, cs.length) := by
  have hfixed (hhex : Hex cs c.toNat) : fixed cs.length (cs ++ rest) = .ok (c, cs.length) := by
    have htake : (cs ++ rest).take cs.length = cs := List.take_left
    exact fixed_eq_ok.mpr ⟨rfl, by rw [htake], by rwa [htake]⟩
  cases h with
  | control hc =>
    simp only [controls, List.mem_cons, Prod.mk.injEq, List.not_mem_nil, or_false] at hc
    rcases hc with ⟨rfl, rfl⟩ | ⟨rfl, rfl⟩ | ⟨rfl, rfl⟩ | ⟨rfl, rfl⟩ | ⟨rfl, rfl⟩ | ⟨rfl, rfl⟩ | ⟨rfl, rfl⟩
    all_goals rfl
  | two hlen hhex =>
    rw [hlen] at hfixed ⊢
    exact hfixed hhex
  | four hlen hhex =>
    have hbrace (tail : List Char) : cs ++ rest ≠ '\x7b' :: tail := by
      intro heq
      cases cs with
      | nil => cases hlen
      | cons d ds =>
        obtain ⟨rfl, -⟩ := List.cons.inj heq
        cases hhex.isHexDigit _ List.mem_cons_self
    rw [hlen] at hfixed ⊢
    rw [← hfixed hhex]
    generalize cs ++ rest = r at hbrace ⊢
    simp only [read]
  | braced hsign hne hlen hhex =>
    refine braced_eq_ok.mpr ⟨_, _, rest, by simp, ?_, hsign, hne, hlen, hhex⟩
    rw [List.length_cons, List.length_append, List.length_singleton]
  | itself hcontrol hx hu =>
    unfold read
    split
    case h_8 => exact absurd rfl hx
    case h_9 => exact absurd rfl hu
    case h_10 => rfl
    all_goals exact absurd (by decide) hcontrol

end

/-! ## Decoding a body -/

section
variable {pos : Nat} {c e : Char} {cs body text : List Char}

theorem decodeFrom_plain (hc : c ≠ '\\') (pos : Nat) (body : List Char) :
    decodeFrom pos (c :: body) = (decodeFrom (pos + c.utf8Size) body).map (c :: ·) := by
  rw [decodeFrom]
  rintro e rest rfl -
  exact hc rfl

theorem decodeFrom_escape {rest : List Char} {n : Nat} (h : read e rest = .ok (c, n)) (pos : Nat) :
    decodeFrom pos ('\\' :: e :: rest) =
      (decodeFrom (pos + 1 + e.utf8Size + byteLength (rest.take n)) (rest.drop n)).map (c :: ·) := by
  simp only [decodeFrom, h]

theorem decodeFrom_denotes (h : Denotes true cs c) (pos : Nat) (body : List Char) :
    decodeFrom pos (cs ++ body) = (decodeFrom (pos + byteLength cs) body).map (c :: ·) := by
  obtain ⟨rfl, hc⟩ | ⟨e, ds, rfl⟩ := h.plain_or_escape
  · exact decodeFrom_plain hc pos body
  · have hbytes : pos + byteLength ('\\' :: e :: ds) = pos + 1 + e.utf8Size + byteLength ds := by
      simp only [Lexer.byteLength_cons, ← Nat.add_assoc]
      rfl
    rw [List.cons_append, List.cons_append, decodeFrom_escape (read_complete h body), List.take_left, List.drop_left, hbytes]

/-- What is put together is decoded. -/
theorem Reads.decodeFrom_eq (h : Reads true body text) (pos : Nat) : decodeFrom pos body = .ok text := by
  induction h generalizing pos with
  | nil => rw [decodeFrom]
  | cons hc _ ih =>
    rw [decodeFrom_denotes hc, ih]
    rfl

/-- Behind the letter of an escape stand no backslashes. -/
theorem Denotes.ne_backslash {plus : Bool} (h : Denotes plus ('\\' :: e :: cs) c) : ∀ d ∈ cs, d ≠ '\\' := by
  have hhex {ds : List Char} {n : Nat} (h : Hex ds n) : ∀ d ∈ ds, d ≠ '\\' :=
    fun d hd => ((Sign.append_hex (.inl rfl) h).2 d hd).2
  cases h with
  | control _ | itself _ _ _ => exact List.forall_mem_nil _
  | two _ h | four _ h => exact hhex h
  | braced hsign _ _ h =>
    refine List.forall_mem_cons.mpr ⟨by decide, List.forall_mem_append.mpr ⟨fun d hd => ?_, by simp⟩⟩
    exact ((Sign.append_hex (hsign.imp_right fun hplus => ⟨rfl, hplus.2⟩) h).2 d hd).2

/-- What is decoded is put together from what its escapes and other characters denote. -/
theorem reads_of_decodeFrom {q : Char} (hb : Lexer.StringBody q body) (h : decodeFrom pos body = .ok text) :
    Reads true body text := by
  fun_induction decodeFrom pos body generalizing text with
  | case1 =>
    cases h
    exact .nil
  | case2 => cases h
  | case3 pos e rest c n hread ih =>
    obtain ⟨text, hrest, rfl⟩ := of_map_ok h
    obtain ⟨hn, hc⟩ := read_sound hread
    have hbody : Lexer.StringBody q rest := by
      cases hb with
      | plain _ hslash _ _ _ => exact absurd rfl hslash
      | pair _ _ hb => exact hb
    rw [← List.take_append_drop n rest] at hbody
    have hreads := Reads.cons hc (ih (hbody.drop hc.ne_backslash) hrest)
    rwa [List.cons_append, List.cons_append, List.take_append_drop] at hreads
  | case4 pos c rest hpair ih =>
    obtain ⟨text, hrest, rfl⟩ := of_map_ok h
    cases hb with
    | plain _ hslash _ _ hb => exact .cons (.plain hslash) (ih hb hrest)
    | pair _ _ _ => exact (hpair _ _ rfl rfl).elim

/-- Without a sign behind a brace, digits are all that counts. -/
theorem Reads.unsigned (h : Reads true body text) (hsign : ¬ ['\\', 'u', '\x7b', '+'] <:+: body) : Reads false body text := by
  induction h with
  | nil => exact .nil
  | @cons cs body text c hc _ ih =>
    have hrest := ih fun hin => hsign (hin.trans (List.suffix_append cs body).isInfix)
    refine .cons (hc.change_sign ?_) hrest
    rintro sign ds rfl (rfl | ⟨-, rfl⟩)
    · exact .inl rfl
    · exact absurd ⟨[], _, rfl⟩ hsign

theorem Reads.signed (h : Reads false body text) : Reads true body text := by
  induction h with
  | nil => exact .nil
  | cons hc _ ih => exact .cons (hc.change_sign fun _ _ _ hs => hs.imp_right fun hplus => ⟨rfl, hplus.2⟩) ih

/-- A sign behind a brace is read only where it may be. -/
theorem Reads.plus_of_sign {plus : Bool} (h : Reads plus ('\\' :: 'u' :: '\x7b' :: '+' :: cs) text) : plus = true := by
  generalize hbody : '\\' :: 'u' :: '\x7b' :: '+' :: cs = body at h
  cases h with
  | nil => cases hbody
  | cons hc _ =>
    cases hc with
    | plain hc =>
      cases hbody
      exact absurd rfl hc
    | control hc =>
      cases hbody
      simp [controls] at hc
    | two _ _ => cases hbody
    | @four ds _ hlen hhex =>
      cases ds with
      | nil => cases hlen
      | cons d ds =>
        obtain ⟨-, -, rfl, -⟩ := by simpa only [List.cons_append, List.cons.injEq] using hbody
        cases hhex.isHexDigit _ List.mem_cons_self
    | @braced sign ds _ hs hne _ hhex =>
      rcases hs with rfl | ⟨hplus, -⟩
      · cases ds with
        | nil => exact absurd rfl hne
        | cons d ds =>
          obtain ⟨-, -, -, rfl, -⟩ := by simpa only [List.nil_append, List.cons_append, List.cons.injEq] using hbody
          cases hhex.isHexDigit _ List.mem_cons_self
      · exact hplus
    | itself _ _ hu =>
      cases hbody
      exact absurd rfl hu

end

/-- The body of a string literal is decoded if and only if it is put together from characters and
    escapes, and then to what these denote. An escape may have a plus in front of digits in braces; in a
    body where no plus stands there, it has not. -/
theorem decode_reads {q : Char} {body rest : List Char}
    (hbody : Lexer.stringLength q (body ++ q :: rest) = (true, body.length + 1)) :
    (∀ text, decode body = .ok text ↔ Reads true body text) ∧
      (¬ ['\\', 'u', '\x7b', '+'] <:+: body → ∀ text, decode body = .ok text ↔ Reads false body text) := by
  have hb : Lexer.StringBody q body := by
    rcases Lexer.stringLength_spec q (body ++ q :: rest) with ⟨body', rest', hlen, happend, hb⟩ | ⟨body', tail, rest', hlen, -⟩
    · rw [hbody] at hlen
      have hsame : body.length = body'.length := by simpa using hlen
      rwa [(List.append_inj happend hsame).1]
    · rw [hbody] at hlen
      cases hlen
  have hdecode (text : List Char) : decode body = .ok text ↔ Reads true body text :=
    ⟨reads_of_decodeFrom hb, fun h => h.decodeFrom_eq 0⟩
  refine ⟨hdecode, fun hsign text => (hdecode text).trans ⟨fun h => h.unsigned hsign, Reads.signed⟩⟩

/-- The body of `'it\'s \x41\u00e9\u{1F600}\n'`. -/
theorem decode_reads_escapes :
    let body := "it\\'s \\x41\\u00e9\\u\x7b1F600\x7d\\n".toList
    Lexer.stringLength '\'' (body ++ ['\'']) = (true, body.length + 1) ∧ ¬ ['\\', 'u', '\x7b', '+'] <:+: body ∧
      Reads false body "it's Aé😀\n".toList := by
  intro body
  have hbody : Lexer.stringLength '\'' (body ++ ['\'']) = (true, body.length + 1) := by decide +kernel
  have hsign : ¬ ['\\', 'u', '\x7b', '+'] <:+: body := by decide +kernel
  exact ⟨hbody, hsign, ((decode_reads hbody).2 hsign _).mp (by decide +kernel)⟩

/-- The body `\u{+41}` is decoded, though a plus is no digit. -/
theorem decode_plus :
    let body := "\\u\x7b+41\x7d".toList
    Lexer.stringLength '\'' (body ++ ['\'']) = (true, body.length + 1) ∧ decode body = .ok ['A'] ∧
      ¬ ∃ text, Reads false body text := by
  intro body
  refine ⟨by decide +kernel, by decide +kernel, ?_⟩
  rintro ⟨text, h⟩
  have hbody : body = ['\\', 'u', '\x7b', '+', '4', '1', '\x7d'] := by decide +kernel
  rw [hbody] at h
  cases h.plus_of_sign

end Escape

end Treewalk
