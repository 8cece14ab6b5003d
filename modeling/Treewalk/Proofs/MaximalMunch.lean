/-
  Treewalk.Proofs.MaximalMunch — the lexer takes the longest lexeme there is.

  `shape` finds out where a lexeme ends by going along it. Proved: what it finds is the longest
  lexeme at the front of the text by any of the rules, or no rule spells one (`shape_longest`). So
  the shape of a text that some longest lexeme begins is known without looking at how it is found
  (`shape_eq`).
-/

import Mathlib.Data.List.Nodup
import Mathlib.Data.List.TakeWhile
import Treewalk.Proofs.Lexemes

namespace Treewalk

namespace Punct

theorem mem_all (p : Punct) : p ∈ Punct.all := by cases p <;> decide

theorem text_inj {p p' : Punct} (h : p.text.toList = p'.text.toList) : p = p' := by
  have hnodup : (all.map (·.text.toList)).Nodup := by decide
  exact List.inj_on_of_nodup_map hnodup p.mem_all p'.mem_all h

/-- No spelling stands behind a shorter one. -/
theorem all_sorted : all.Pairwise fun p p' => p'.text.toList.length ≤ p.text.toList.length := by decide

theorem longest_of_ofStart? {cs : List Char} {p : Punct} (h : ofStart? cs = some p) :
    p.text.toList <+: cs ∧
      ∀ p' : Punct, p'.text.toList <+: cs → p'.text.toList.length < p.text.toList.length ∨ p' = p := by
  obtain ⟨hp, before, behind, hall, hbefore⟩ := List.find?_eq_some_iff_append.mp h
  have hpre := List.isPrefixOf_iff_prefix.mp hp
  refine ⟨hpre, fun p' hp' => ?_⟩
  have hsorted := all_sorted
  have hmem := p'.mem_all
  rw [hall] at hsorted hmem
  obtain ⟨-, hsorted, -⟩ := List.pairwise_append.mp hsorted
  rcases List.mem_append.mp hmem with hmem | hmem
  · have hnot := hbefore p' hmem
    rw [List.isPrefixOf_iff_prefix.mpr hp'] at hnot
    cases hnot
  · rcases List.mem_cons.mp hmem with rfl | hmem
    · exact .inr rfl
    · have hle := (List.pairwise_cons.mp hsorted).1 p' hmem
      rcases Nat.lt_or_eq_of_le hle with hlt | heq
      · exact .inl hlt
      · exact .inr (text_inj ((List.prefix_of_prefix_length_le hp' hpre hle).eq_of_length heq))

theorem not_prefix_of_ofStart? {cs : List Char} (h : ofStart? cs = none) (p : Punct) :
    ¬ p.text.toList <+: cs := by
  intro hp
  have hnot := List.find?_eq_none.mp h p p.mem_all
  exact hnot (List.isPrefixOf_iff_prefix.mpr hp)

end Punct

/-- A run is told from what stands behind it. -/
theorem run_append_inj {α : Type} {p : α → Bool} {as bs as' bs' : List α} (has : ∀ a ∈ as, p a = true)
    (has' : ∀ a ∈ as', p a = true) (hbs : ∀ b ∈ bs.head?, p b = false) (hbs' : ∀ b ∈ bs'.head?, p b = false)
    (h : as ++ bs = as' ++ bs') : as = as' ∧ bs = bs' := by
  have hstop {bs : List α} (hbs : ∀ b ∈ bs.head?, p b = false) : bs.takeWhile p = [] := by
    cases bs with
    | nil => rfl
    | cons b bs => exact List.takeWhile_cons_of_neg (by simp [hbs b rfl])
  have htake := congrArg (List.takeWhile p) h
  rw [List.takeWhile_append_of_pos has, List.takeWhile_append_of_pos has', hstop hbs, hstop hbs', List.append_nil,
    List.append_nil] at htake
  subst htake
  exact ⟨rfl, List.append_cancel_left h⟩

namespace Lexer

open Escape (isHexDigit)

/-! ## Runs of characters -/

section
variable {p : Char → Bool} {ds tail cs : List Char}

/-- A run in front of something that does not belong to it ends where the longest run ends. -/
theorem prefix_run (hds : ∀ d ∈ ds, p d = true) (htail : ∀ c ∈ tail.head?, p c = false) (h : ds ++ tail <+: cs) :
    tail = [] ∧ ds.length ≤ (cs.takeWhile p).length ∨
      ds.length = (cs.takeWhile p).length ∧ tail <+: cs.drop (cs.takeWhile p).length := by
  induction ds generalizing cs with
  | nil =>
    cases tail with
    | nil => exact .inl ⟨rfl, Nat.zero_le _⟩
    | cons t ts =>
      obtain ⟨rest, rfl⟩ := h
      have ht : p t = false := htail t rfl
      right
      simp [ht]
  | cons d ds ih =>
    obtain ⟨hd, hds⟩ := List.forall_mem_cons.mp hds
    obtain ⟨rest, rfl⟩ := h
    have hrest := ih hds ⟨rest, rfl⟩
    simpa [hd] using hrest

theorem length_le_run (hds : ∀ d ∈ ds, p d = true) (h : ds <+: cs) : ds.length ≤ (cs.takeWhile p).length := by
  have hrun := prefix_run hds (show ∀ c ∈ [].head?, p c = false by simp) (by simpa using h)
  omega

theorem take_run : cs.take (cs.takeWhile p).length = cs.takeWhile p :=
  (List.prefix_iff_eq_take.mp (List.takeWhile_prefix p)).symm

theorem run_le : (cs.takeWhile p).length ≤ cs.length := (List.takeWhile_prefix p).length_le

end

/-- A lexeme by its first character and the rest of it. -/
theorem Longest.cons {s : Shape} {k : Nat} {c : Char} {cs : List Char} (hle : k ≤ cs.length)
    (hs : Spells s (c :: cs.take k))
    (h : ∀ s' l, Spells s' (c :: l) → l <+: cs → l.length < k ∨ l.length = k ∧ s' = s) : Longest s (k + 1) (c :: cs) := by
  refine ⟨Nat.succ_le_succ hle, hs, fun s' l hl hpre => ?_⟩
  cases l with
  | nil => exact absurd rfl hl.ne_nil
  | cons d l =>
    obtain ⟨rfl, hrest⟩ := List.cons_prefix_cons.mp hpre
    have := h s' l hl hrest
    simpa using this

/-! ## Blanks and words -/

theorem longest_gap {c : Char} {cs : List Char} (hc : isGap c = true) :
    Longest .gap ((cs.takeWhile isGap).length + 1) (c :: cs) := by
  refine .cons run_le ?_ fun s' l hl hpre => ?_
  · rw [take_run]
    exact .gap hc fun d hd => List.mem_takeWhile_imp hd
  · obtain ⟨rfl, hall⟩ := hl.of_gap hc
    have := length_le_run hall hpre
    grind

theorem longest_word {c : Char} {cs : List Char} (hc : isWordStart c = true) :
    Longest .word ((cs.takeWhile isWordPart).length + 1) (c :: cs) := by
  refine .cons run_le ?_ fun s' l hl hpre => ?_
  · rw [take_run]
    exact .word hc fun d hd => List.mem_takeWhile_imp hd
  · obtain ⟨rfl, hall⟩ := hl.of_word hc
    have := length_le_run hall hpre
    grind

/-! ## Strings -/

/-- No string body goes on here. -/
def Halts (q : Char) (cs : List Char) : Prop := ∀ b, StringBody q b → b <+: cs → b = []

section
variable {q c : Char} {b b' cs : List Char}

theorem halts_nil : Halts q [] := fun _ _ h => List.prefix_nil.mp h

theorem halts_line (hc : c = '\n' ∨ c = '\r') : Halts q (c :: cs) := by
  intro b hb h
  cases hb with
  | nil => rfl
  | plain _ _ hn hr _ =>
    obtain ⟨rfl, -⟩ := List.cons_prefix_cons.mp h
    exact absurd hc (not_or.mpr ⟨hn, hr⟩)
  | pair _ _ _ =>
    obtain ⟨rfl, -⟩ := List.cons_prefix_cons.mp h
    simp at hc

theorem halts_quote (hq : q ≠ '\\') : Halts q (q :: cs) := by
  intro b hb h
  cases hb with
  | nil => rfl
  | plain hne _ _ _ _ => exact absurd (List.cons_prefix_cons.mp h).1 hne
  | pair _ _ _ => exact absurd (List.cons_prefix_cons.mp h).1.symm hq

/-- A backslash that has no character to go with. -/
theorem halts_backslash (hcs : ∀ c ∈ cs.head?, c = '\n' ∨ c = '\r') : Halts q ('\\' :: cs) := by
  intro b hb h
  cases hb with
  | nil => rfl
  | plain _ hslash _ _ _ => exact absurd (List.cons_prefix_cons.mp h).1 hslash
  | pair hn hr _ =>
    obtain ⟨rest, rfl⟩ := (List.cons_prefix_cons.mp h).2
    exact absurd (hcs _ rfl) (not_or.mpr ⟨hn, hr⟩)

/-- Only one body reaches up to where it must end. -/
theorem StringBody.prefix_of_halts (hb : StringBody q b) (hb' : StringBody q b') (hcs : Halts q cs)
    (h : b' <+: b ++ cs) : b' <+: b := by
  induction hb generalizing b' with
  | nil => exact List.prefix_nil.mpr (hcs b' hb' h)
  | plain hne hslash hn hr _ ih =>
    cases hb' with
    | nil => exact List.nil_prefix
    | plain _ _ _ _ hb' =>
      obtain ⟨rfl, hrest⟩ := List.cons_prefix_cons.mp h
      exact List.cons_prefix_cons.mpr ⟨rfl, ih hb' hrest⟩
    | pair _ _ _ => exact absurd (List.cons_prefix_cons.mp h).1.symm hslash
  | pair hn hr _ ih =>
    cases hb' with
    | nil => exact List.nil_prefix
    | plain _ hslash _ _ _ => exact absurd (List.cons_prefix_cons.mp h).1 hslash
    | pair _ _ hb' =>
      obtain ⟨rfl, hrest⟩ := List.cons_prefix_cons.mp (List.cons_prefix_cons.mp h).2
      exact List.cons_prefix_cons.mpr ⟨rfl, List.cons_prefix_cons.mpr ⟨rfl, ih hb' hrest⟩⟩

/-- A quote behind a body is no part of a longer one. -/
theorem StringBody.not_quote_prefix (hq : q ≠ '\\') (hb : StringBody q b) (hb' : StringBody q b') :
    ¬ b' ++ [q] <+: b := by
  rintro ⟨rest, rfl⟩
  have hpre : b' ++ [q] ++ rest <+: b' ++ q :: rest := by simp
  have hle := (hb'.prefix_of_halts hb (halts_quote hq) hpre).length_le
  rw [List.length_append, List.length_append, List.length_singleton] at hle
  omega

/-- Where the scan of a string stops: behind the quote that closes it, or where its body must end. -/
theorem stringLength_spec (q : Char) (cs : List Char) :
    (∃ body rest, stringLength q cs = (true, body.length + 1) ∧ cs = body ++ q :: rest ∧ StringBody q body) ∨
    ∃ body tail rest, stringLength q cs = (false, (body ++ tail).length) ∧ cs = body ++ (tail ++ rest) ∧
      StringBody q body ∧ (tail = [] ∨ tail = ['\\']) ∧ Halts q (tail ++ rest) ∧ (∀ c ∈ rest.head?, c = '\n' ∨ c = '\r') := by
  fun_induction stringLength q cs with
  | case1 => exact .inr ⟨[], [], [], rfl, rfl, .nil, .inl rfl, halts_nil, by simp⟩
  | case2 c cs hc =>
    exact .inr ⟨[], ['\\'], c :: cs, rfl, rfl, .nil, .inr rfl, halts_backslash (by simpa using hc), by simpa using hc⟩
  | case3 c cs hc closed n h ih =>
    obtain ⟨hn, hr⟩ := not_or.mp hc
    rcases ih with ⟨body, rest, hlen, rfl, hb⟩ | ⟨body, tail, rest, hlen, rfl, hb, htail, hhalt, hrest⟩
    · cases h.symm.trans hlen
      exact .inl ⟨_, rest, rfl, rfl, .pair hn hr hb⟩
    · cases h.symm.trans hlen
      exact .inr ⟨_, tail, rest, rfl, rfl, .pair hn hr hb, htail, hhalt, hrest⟩
  | case4 c cs hne hc => exact .inr ⟨[], [], c :: cs, rfl, rfl, .nil, .inl rfl, halts_line hc, by simpa using hc⟩
  | case5 cs hpair hne => exact .inl ⟨[], cs, rfl, rfl, .nil⟩
  | case6 c cs hpair hne hc closed n h ih =>
    obtain ⟨hn, hr⟩ := not_or.mp hne
    by_cases hslash : c = '\\'
    · cases cs with
      | nil =>
        subst hslash
        cases h
        exact .inr ⟨[], ['\\'], [], rfl, rfl, .nil, .inr rfl, halts_backslash (by simp), by simp⟩
      | cons d ds => exact absurd rfl (hpair d ds hslash)
    · rcases ih with ⟨body, rest, hlen, rfl, hb⟩ | ⟨body, tail, rest, hlen, rfl, hb, htail, hhalt, hrest⟩
      · cases h.symm.trans hlen
        exact .inl ⟨_, rest, rfl, rfl, .plain hc hslash hn hr hb⟩
      · cases h.symm.trans hlen
        exact .inr ⟨_, tail, rest, rfl, rfl, .plain hc hslash hn hr hb, htail, hhalt, hrest⟩

/-- What stands in front of a quote is less than a body that ends without one. -/
theorem StringBody.not_closed (hq : q = '"' ∨ q = '\'') {tail rest : List Char} (hb : StringBody q b)
    (hb' : StringBody q b') (htail : tail = [] ∨ tail = ['\\']) (hhalt : Halts q (tail ++ rest))
    (hrest : ∀ c ∈ rest.head?, c = '\n' ∨ c = '\r') : ¬ b' ++ [q] <+: b ++ (tail ++ rest) := by
  intro hpre
  have hslash : q ≠ '\\' := by rcases hq with rfl | rfl <;> decide
  have hbody := hb.prefix_of_halts hb' hhalt ((List.prefix_append _ _).trans hpre)
  rcases Nat.lt_or_ge b'.length b.length with hlt | hge
  · refine hb.not_quote_prefix hslash hb' (List.prefix_of_prefix_length_le hpre (List.prefix_append _ _) ?_)
    simpa [Nat.succ_le_iff] using hlt
  · obtain rfl := hbody.eq_of_length_le hge
    have hquote : [q] <+: tail ++ rest := (List.prefix_append_right_inj _).mp hpre
    rcases htail with rfl | rfl
    · obtain ⟨rest, rfl⟩ := hquote
      rcases hq with rfl | rfl <;> simp at hrest
    · exact hslash (List.cons_prefix_cons.mp hquote).1

theorem longest_string (hq : q = '"' ∨ q = '\'') {body : List Char} (hb : StringBody q body) (rest : List Char) :
    Longest .string (body.length + 1 + 1) (q :: (body ++ q :: rest)) := by
  have hslash : q ≠ '\\' := by rcases hq with rfl | rfl <;> decide
  refine .cons (by simp) ?_ fun s' l hl hpre => ?_
  · rw [List.append_cons, List.take_left' (by simp)]
    exact .string hq hb
  · rcases hl.of_quote hq with ⟨rfl, body', rfl, hb'⟩ | ⟨rfl, body', tail, rfl, hb', htail⟩
    · have hle := (hb.prefix_of_halts hb' (halts_quote hslash) ((List.prefix_append _ _).trans hpre)).length_le
      simp
      omega
    · have hbody := hb.prefix_of_halts hb' (halts_quote hslash) ((List.prefix_append _ _).trans hpre)
      have hle := hbody.length_le
      rcases htail with rfl | rfl
      · simp
        omega
      · have hne : body'.length ≠ body.length := by
          intro heq
          obtain rfl := hbody.eq_of_length heq
          have hback := (List.prefix_append_right_inj _).mp hpre
          exact hslash (List.cons_prefix_cons.mp hback).1.symm
        simp
        omega

/-- A string that is not closed goes on as far as it can. -/
theorem longest_openString (hq : q = '"' ∨ q = '\'') {body tail rest : List Char} (hb : StringBody q body)
    (htail : tail = [] ∨ tail = ['\\']) (hhalt : Halts q (tail ++ rest)) (hrest : ∀ c ∈ rest.head?, c = '\n' ∨ c = '\r') :
    Longest .openString ((body ++ tail).length + 1) (q :: (body ++ (tail ++ rest))) := by
  refine .cons (by simp) ?_ fun s' l hl hpre => ?_
  · rw [← List.append_assoc, List.take_left]
    exact .openString hq hb htail
  · rcases hl.of_quote hq with ⟨rfl, body', rfl, hb'⟩ | ⟨rfl, body', tail', rfl, hb', htail'⟩
    · exact absurd hpre (hb.not_closed hq hb' htail hhalt hrest)
    · have hbody := hb.prefix_of_halts hb' hhalt ((List.prefix_append _ _).trans hpre)
      have hle := hbody.length_le
      rcases htail' with rfl | rfl
      · simp
        omega
      · have hne : tail = [] → body'.length ≠ body.length := by
          rintro rfl heq
          obtain rfl := hbody.eq_of_length heq
          obtain ⟨rest, rfl⟩ := (List.prefix_append_right_inj _).mp hpre
          simp at hrest
        rcases htail with rfl | rfl
        · have := hne rfl
          simp
          omega
        · simp
          omega

theorem longest_quote (hq : q = '"' ∨ q = '\'') (cs : List Char) :
    Longest (if (stringLength q cs).1 then .string else .openString) ((stringLength q cs).2 + 1) (q :: cs) := by
  rcases stringLength_spec q cs with ⟨body, rest, hlen, rfl, hb⟩ | ⟨body, tail, rest, hlen, rfl, hb, htail, hhalt, hrest⟩
  · simp only [hlen, if_true]
    exact longest_string hq hb rest
  · simp only [hlen, Bool.false_eq_true, if_false]
    exact longest_openString hq hb htail hhalt hrest

end

/-! ## Punctuation -/

/-- Where only punctuation can begin, the longest spelling is taken. -/
theorem longest_punct {c : Char} {cs : List Char} {p : Punct} (h : Punct.ofStart? (c :: cs) = some p)
    (honly : ∀ s l, Spells s (c :: l) → l <+: cs → ∃ p' : Punct, s = .punct p' ∧ c :: l = p'.text.toList) :
    Longest (punctShape (c :: cs)).1 (punctShape (c :: cs)).2 (c :: cs) := by
  obtain ⟨hpre, hlongest⟩ := Punct.longest_of_ofStart? h
  simp only [punctShape, h]
  rw [← String.length_toList]
  refine ⟨hpre.length_le, ?_, fun s l hl hl' => ?_⟩
  · exact .punct (List.prefix_iff_eq_take.mp hpre).symm
  · cases l with
    | nil => exact absurd rfl hl.ne_nil
    | cons d l =>
      obtain ⟨rfl, hrest⟩ := List.cons_prefix_cons.mp hl'
      obtain ⟨p', rfl, heq⟩ := honly s l hl hrest
      rw [heq] at hl' ⊢
      rcases hlongest p' hl' with hlt | rfl
      · exact .inl hlt
      · exact .inr ⟨rfl, rfl⟩

/-! ## Comments -/

section
variable {cs body : List Char}

/-- Where the scan of a block comment stops: behind its first star and slash. -/
theorem commentLength?_spec (cs : List Char) :
    (∃ body rest, commentLength? cs = some (body.length + 2) ∧ cs = body ++ '*' :: '/' :: rest ∧
      ¬ ['*', '/'] <:+: body ++ ['*']) ∨
    (commentLength? cs = none ∧ ¬ ['*', '/'] <:+: cs) := by
  fun_induction commentLength? cs with
  | case1 cs => exact .inl ⟨[], cs, rfl, rfl, by decide⟩
  | case2 c cs hc ih =>
    rcases ih with ⟨body, rest, hlen, rfl, hb⟩ | ⟨hlen, hcs⟩
    · refine .inl ⟨c :: body, rest, by simp [hlen], rfl, fun h => ?_⟩
      rcases List.infix_cons_iff.mp h with h | h
      · obtain ⟨hstar, hslash⟩ := List.cons_prefix_cons.mp h
        cases body with
        | nil => simp at hslash
        | cons d body =>
          obtain ⟨rfl, -⟩ := List.cons_prefix_cons.mp hslash
          exact hc _ hstar.symm rfl
      · exact hb h
    · refine .inr ⟨by simp [hlen], fun h => ?_⟩
      rcases List.infix_cons_iff.mp h with h | h
      · obtain ⟨hstar, rest, rfl⟩ := List.cons_prefix_cons.mp h
        exact hc _ hstar.symm rfl
      · exact hcs h
  | case3 => exact .inr ⟨rfl, by simp⟩

/-- What is closed is not longer than what was closed first. -/
theorem length_le_of_closed {rest : List Char} (hbody : ¬ ['*', '/'] <:+: body ++ ['*'])
    (h : body ++ ['*', '/'] <+: cs ++ '*' :: '/' :: rest) : body.length ≤ cs.length := by
  by_contra hlt
  have hcs : cs ++ ['*', '/'] <+: cs ++ '*' :: '/' :: rest := ⟨rest, by simp⟩
  have hstar : body ++ ['*'] <+: cs ++ '*' :: '/' :: rest := .trans ⟨['/'], by simp⟩ h
  have hinside := List.prefix_of_prefix_length_le hcs hstar (by simp; omega)
  exact hbody ((List.suffix_append _ _).isInfix.trans hinside.isInfix)

/-- What is not closed ends before the close. -/
theorem length_lt_of_open {rest : List Char} (hbody : ¬ ['*', '/'] <:+: body) (h : body <+: cs ++ '*' :: '/' :: rest) :
    body.length < cs.length + 2 := by
  by_contra hge
  have hcs : cs ++ ['*', '/'] <+: cs ++ '*' :: '/' :: rest := ⟨rest, by simp⟩
  have hinside := List.prefix_of_prefix_length_le hcs h (by simp; omega)
  exact hbody ((List.suffix_append _ _).isInfix.trans hinside.isInfix)

theorem longest_lineComment (cs : List Char) :
    Longest .lineComment (2 + (cs.takeWhile (· ≠ '\n')).length) ('/' :: '/' :: cs) := by
  rw [Nat.add_comm]
  refine .cons (by simpa using run_le) ?_ fun s' l hl hpre => ?_
  · rw [List.take_succ_cons, take_run]
    exact .lineComment fun hmem => by simpa using List.mem_takeWhile_imp hmem
  · rcases hl.of_slash with ⟨rfl, rfl⟩ | ⟨rfl, body, rfl, hbody⟩ | ⟨rfl, body, rfl, -⟩ | ⟨rfl, body, rfl, -⟩
    · exact .inl (Nat.succ_pos _)
    · have hall : ∀ d ∈ body, decide (d ≠ '\n') = true := fun d hd => decide_eq_true fun h => hbody (h ▸ hd)
      have hle := length_le_run hall (List.cons_prefix_cons.mp hpre).2
      simp only [List.length_cons, and_true]
      omega
    · simp at hpre
    · simp at hpre

theorem longest_blockComment {rest : List Char} (hbody : ¬ ['*', '/'] <:+: body ++ ['*']) :
    Longest .blockComment (2 + (body.length + 2)) ('/' :: '*' :: (body ++ '*' :: '/' :: rest)) := by
  rw [show 2 + (body.length + 2) = body.length + 2 + 1 + 1 by omega]
  refine .cons (by simp) ?_ fun s' l hl hpre => ?_
  · have htake : (body ++ '*' :: '/' :: rest).take (body.length + 2) = body ++ ['*', '/'] := by
      rw [show body ++ '*' :: '/' :: rest = body ++ ['*', '/'] ++ rest by simp]
      exact List.take_left' (by simp)
    rw [List.take_succ_cons, htake]
    exact .blockComment hbody
  · rcases hl.of_slash with ⟨rfl, rfl⟩ | ⟨rfl, body', rfl, -⟩ | ⟨rfl, body', rfl, hbody'⟩ | ⟨rfl, body', rfl, hbody'⟩
    · exact .inl (Nat.succ_pos _)
    · simp at hpre
    · have hle := length_le_of_closed hbody' (List.cons_prefix_cons.mp hpre).2
      simp
      omega
    · have hlt := length_lt_of_open hbody' (List.cons_prefix_cons.mp hpre).2
      simp
      omega

theorem longest_openComment (hcs : ¬ ['*', '/'] <:+: cs) : Longest .openComment (2 + cs.length) ('/' :: '*' :: cs) := by
  rw [show 2 + cs.length = cs.length + 1 + 1 by omega]
  refine .cons (by simp) ?_ fun s' l hl hpre => ?_
  · rw [List.take_of_length_le (by simp)]
    exact .openComment hcs
  · rcases hl.of_slash with ⟨rfl, rfl⟩ | ⟨rfl, body, rfl, -⟩ | ⟨rfl, body, rfl, -⟩ | ⟨rfl, body, rfl, -⟩
    · exact .inl (Nat.succ_pos _)
    · simp at hpre
    · have hclosed := (List.cons_prefix_cons.mp hpre).2
      exact absurd ((List.suffix_append _ _).isInfix.trans hclosed.isInfix) hcs
    · have hle := (List.cons_prefix_cons.mp hpre).2.length_le
      simp
      omega

/-- A slash that begins no comment. -/
theorem longest_division (hcs : ∀ c ∈ cs.head?, c ≠ '/' ∧ c ≠ '*') :
    Longest (punctShape ('/' :: cs)).1 (punctShape ('/' :: cs)).2 ('/' :: cs) := by
  refine longest_punct (p := .slash) (by rfl) fun s l hl hpre => ?_
  have hhead : ∀ c l, c :: l <+: cs → c ≠ '/' ∧ c ≠ '*' := by
    rintro c l ⟨rest, rfl⟩
    exact hcs c rfl
  rcases hl.of_slash with ⟨rfl, rfl⟩ | ⟨rfl, body, rfl, -⟩ | ⟨rfl, body, rfl, -⟩ | ⟨rfl, body, rfl, -⟩
  · exact ⟨.slash, rfl, rfl⟩
  · exact absurd rfl (hhead _ _ hpre).1
  · exact absurd rfl (hhead _ _ hpre).2
  · exact absurd rfl (hhead _ _ hpre).2

theorem longest_slash (cs : List Char) : Longest (slashShape ('/' :: cs)).1 (slashShape ('/' :: cs)).2 ('/' :: cs) := by
  unfold slashShape
  split
  · rename_i rest heq
    cases heq
    exact longest_lineComment rest
  · rename_i rest heq
    cases heq
    rcases commentLength?_spec rest with ⟨body, rest, hlen, rfl, hbody⟩ | ⟨hlen, hopen⟩
    · rw [hlen]
      exact longest_blockComment hbody
    · rw [hlen]
      exact longest_openComment hopen
  · rename_i hline hblock
    refine longest_division fun c hc => ⟨?_, ?_⟩
    · rintro rfl
      obtain ⟨rest, rfl⟩ := List.head?_eq_some_iff.mp hc
      exact hline rest rfl
    · rintro rfl
      obtain ⟨rest, rfl⟩ := List.head?_eq_some_iff.mp hc
      exact hblock rest rfl

end

/-! ## Numbers -/

section
variable {cs ds f e m tail : List Char}

theorem Fraction.head (h : Fraction f) : ∀ c ∈ (f ++ tail).head?, c = '.' ∨ f = [] ∧ c ∈ tail.head? := by
  cases h with
  | none => exact fun c hc => .inr ⟨rfl, hc⟩
  | digits _ => simp

theorem Mark.head (h : Mark m) : ∀ c ∈ (m ++ tail).head?, c = 'e' ∨ c = 'E' := by
  cases h with
  | plain hc => simpa using hc
  | signed hc _ => simpa using hc

theorem Exponent.head (h : Exponent e) : ∀ c ∈ e.head?, c = 'e' ∨ c = 'E' := by
  cases h with
  | none => simp
  | some hm _ _ => exact hm.head

/-- What may stand behind the digits of a number does not begin with a digit. -/
theorem isDigit_of_mark {c : Char} (h : c = 'e' ∨ c = 'E') : c.isDigit = false ∧ c ≠ '.' := by
  rcases h with rfl | rfl <;> decide

/-- A fraction in front of something that begins like an exponent is the longest, or nothing follows. -/
theorem prefix_fraction (hf : Fraction f) (htail : ∀ c ∈ tail.head?, c = 'e' ∨ c = 'E') (h : f ++ tail <+: cs) :
    tail = [] ∧ f.length ≤ fractionLength cs ∨ f.length = fractionLength cs ∧ tail <+: cs.drop (fractionLength cs) := by
  cases hf with
  | none =>
    cases tail with
    | nil => exact .inl ⟨rfl, Nat.zero_le _⟩
    | cons c tail =>
      obtain ⟨rest, rfl⟩ := h
      have hpoint := (isDigit_of_mark (htail c rfl)).2
      have hzero : fractionLength (c :: (tail ++ rest)) = 0 := by
        unfold fractionLength
        split <;> simp_all
      right
      simp [hzero]
  | digits hds =>
    obtain ⟨rest, rfl⟩ := h
    have hrun := prefix_run (p := Char.isDigit) hds (fun c hc => (isDigit_of_mark (htail c hc)).1)
      (List.prefix_append _ rest)
    simpa [fractionLength, digitCount, Nat.add_comm 1] using hrun

/-- Whole digits and a fraction likewise. -/
theorem prefix_mantissa (hds : Digits ds) (hf : Fraction f) (htail : ∀ c ∈ tail.head?, c = 'e' ∨ c = 'E')
    (h : ds ++ (f ++ tail) <+: cs) :
    let body := digitCount cs + fractionLength (cs.drop (digitCount cs))
    tail = [] ∧ (ds ++ f).length ≤ body ∨ (ds ++ f).length = body ∧ tail <+: cs.drop body := by
  intro body
  have hhead : ∀ c ∈ (f ++ tail).head?, c.isDigit = false := by
    intro c hc
    rcases hf.head c hc with rfl | ⟨-, hc⟩
    · rfl
    · exact (isDigit_of_mark (htail c hc)).1
  rcases prefix_run (p := Char.isDigit) hds hhead h with ⟨hnil, hle⟩ | ⟨heq, hrest⟩
  · obtain ⟨rfl, rfl⟩ := List.append_eq_nil_iff.mp hnil
    exact .inl ⟨rfl, by simpa [body, digitCount] using Nat.le_add_right_of_le hle⟩
  · rcases prefix_fraction hf htail hrest with ⟨rfl, hle⟩ | ⟨hlen, hrest⟩
    · exact .inl ⟨rfl, by simpa [body, digitCount, heq] using hle⟩
    · refine .inr ⟨by simp [body, digitCount, heq, hlen], ?_⟩
      simpa [body, digitCount] using hrest

theorem exponentLengths_mark {c : Char} (hc : c = 'e' ∨ c = 'E') (cs : List Char) :
    exponentLengths (c :: cs) = some (1 + signLength cs, digitCount (cs.drop (signLength cs))) := by
  simp only [exponentLengths, if_pos hc]

/-- What an exponent mark may be, and how many digits may stand behind it. -/
theorem prefix_mark (hm : Mark m) (hds : Digits ds) (h : m ++ ds <+: cs) :
    ∃ mark digits, exponentLengths cs = some (mark, digits) ∧ m.length ≤ mark ∧
      (ds ≠ [] → m.length = mark ∧ ds.length ≤ digits) := by
  obtain ⟨rest, rfl⟩ := h
  cases hm with
  | @plain c hc =>
    refine ⟨_, _, exponentLengths_mark hc (ds ++ rest), Nat.le_add_right _ _, fun hne => ?_⟩
    cases ds with
    | nil => exact absurd rfl hne
    | cons d ds =>
      have hd : d.isDigit = true := hds d List.mem_cons_self
      have hsign : signLength (d :: (ds ++ rest)) = 0 := by
        unfold signLength
        split
        · rename_i heq
          cases heq
          cases hd
        · rename_i heq
          cases heq
          cases hd
        · rfl
      rw [List.cons_append, hsign]
      exact ⟨rfl, length_le_run (p := Char.isDigit) hds (List.prefix_append _ rest)⟩
  | @signed c s hc hs =>
    have hsign : signLength (s :: (ds ++ rest)) = 1 := by rcases hs with rfl | rfl <;> rfl
    refine ⟨_, _, exponentLengths_mark hc (s :: (ds ++ rest)), ?_, fun _ => ?_⟩
    · simp [hsign]
    · rw [hsign]
      exact ⟨rfl, length_le_run (p := Char.isDigit) hds (List.prefix_append _ rest)⟩

/-- The mark and the digits that are found, as parts of the text. -/
theorem exponentLengths_spec {mark digits : Nat} (h : exponentLengths cs = some (mark, digits)) :
    Mark (cs.take mark) ∧ mark ≤ cs.length ∧ digits = digitCount (cs.drop mark) := by
  cases cs with
  | nil => cases h
  | cons c cs =>
    by_cases hc : c = 'e' ∨ c = 'E'
    · rw [exponentLengths_mark hc] at h
      cases h
      unfold signLength
      split
      · exact ⟨.signed hc (.inl rfl), by simp, rfl⟩
      · exact ⟨.signed hc (.inr rfl), by simp, rfl⟩
      · exact ⟨.plain hc, by simp, rfl⟩
    · simp [exponentLengths, hc] at h

theorem digits_take (cs : List Char) : Digits (cs.take (digitCount cs)) := by
  rw [digitCount, take_run]
  exact fun d hd => List.mem_takeWhile_imp hd

/-- A mark and digits behind it are an exponent. -/
theorem exponent_take {mark digits : Nat} (h : exponentLengths cs = some (mark, digits)) (hpos : 0 < digits) :
    Exponent (cs.take (mark + digits)) ∧ mark + digits ≤ cs.length := by
  obtain ⟨hm, hmark, rfl⟩ := exponentLengths_spec h
  have hdigits : digitCount (cs.drop mark) ≤ (cs.drop mark).length := run_le
  have hne : (cs.drop mark).take (digitCount (cs.drop mark)) ≠ [] := by
    rw [← List.length_pos_iff, List.length_take_of_le hdigits]
    exact hpos
  rw [List.length_drop] at hdigits
  refine ⟨?_, by omega⟩
  rw [List.take_add]
  exact .some hm hne (digits_take _)

/-- Where an exponent can end. -/
theorem exponent_le (he : Exponent e) (h : e <+: cs) :
    e = [] ∨ ∃ mark digits, exponentLengths cs = some (mark, digits) ∧ 0 < digits ∧ e.length ≤ mark + digits := by
  cases he with
  | none => exact .inl rfl
  | some hm hne hds =>
    obtain ⟨mark, digits, heq, -, hlast⟩ := prefix_mark hm hds h
    obtain ⟨hmark, hdigits⟩ := hlast hne
    have hpos := List.length_pos_iff.mpr hne
    refine .inr ⟨mark, digits, heq, by omega, ?_⟩
    rw [List.length_append]
    omega

theorem fractionLength_spec (cs : List Char) :
    Fraction (cs.take (fractionLength cs)) ∧ fractionLength cs ≤ cs.length := by
  unfold fractionLength
  split
  · rename_i cs
    rw [Nat.add_comm, List.take_succ_cons, digitCount, take_run]
    exact ⟨.digits fun d hd => List.mem_takeWhile_imp hd, Nat.succ_le_succ run_le⟩
  · exact ⟨.none, Nat.zero_le _⟩

/-- The characters of the whole digits and of the fraction. -/
def mantissaLength (cs : List Char) : Nat := digitCount cs + fractionLength (cs.drop (digitCount cs))

theorem mantissaLength_le (cs : List Char) : mantissaLength cs ≤ cs.length := by
  have hds : digitCount cs ≤ cs.length := run_le
  have hf := (fractionLength_spec (cs.drop (digitCount cs))).2
  rw [List.length_drop] at hf
  unfold mantissaLength
  omega

theorem take_mantissa (cs : List Char) : ∃ ds f, cs.take (mantissaLength cs) = ds ++ f ∧ Digits ds ∧ Fraction f :=
  ⟨_, _, List.take_add, digits_take cs, (fractionLength_spec _).1⟩

/-- Where a number can end that begins with these characters. -/
theorem number_le (hds : Digits ds) (hf : Fraction f) (he : Exponent e) (h : ds ++ (f ++ e) <+: cs) :
    (ds ++ (f ++ e)).length ≤ mantissaLength cs ∨
      ∃ mark digits, exponentLengths (cs.drop (mantissaLength cs)) = some (mark, digits) ∧ 0 < digits ∧
        (ds ++ (f ++ e)).length ≤ mantissaLength cs + (mark + digits) := by
  rw [← List.append_assoc, List.length_append]
  rcases prefix_mantissa hds hf he.head h with ⟨rfl, hle⟩ | ⟨hlen, hrest⟩
  · exact .inl hle
  · change (ds ++ f).length = mantissaLength cs at hlen
    rcases exponent_le he hrest with rfl | ⟨mark, digits, heq, hpos, hle⟩
    · exact .inl (Nat.le_of_eq hlen)
    · exact .inr ⟨mark, digits, heq, hpos, by omega⟩

/-- Where a malformed number can end. -/
theorem malformed_le (hds : Digits ds) (hf : Fraction f) (hm : Mark m) (h : ds ++ (f ++ m) <+: cs) :
    ∃ mark digits, exponentLengths (cs.drop (mantissaLength cs)) = some (mark, digits) ∧
      (ds ++ (f ++ m)).length ≤ mantissaLength cs + mark := by
  have hhead : ∀ c ∈ m.head?, c = 'e' ∨ c = 'E' := by simpa using @Mark.head m [] hm
  rcases prefix_mantissa hds hf hhead h with ⟨hnil, -⟩ | ⟨hlen, hrest⟩
  · cases hm <;> cases hnil
  · obtain ⟨mark, digits, heq, hmark, -⟩ := prefix_mark hm (show Digits [] by simp [Digits]) (by simpa using hrest)
    refine ⟨mark, digits, heq, ?_⟩
    rw [← List.append_assoc, List.length_append, hlen]
    exact Nat.add_le_add_left hmark _

section
variable {d : Char} (hd : d.isDigit = true) (hhex : d = '0' → ∀ c ∈ cs.head?, c ≠ 'x' ∧ c ≠ 'X')
include hd hhex

/-- Without a hexadecimal mark, decimal numbers and malformed ones are all that begins with a digit. -/
theorem Longest.decimal {s : Shape} {k : Nat} (hle : k ≤ cs.length) (hs : Spells s (d :: cs.take k))
    (hnumber : ∀ {ds f e : List Char}, Digits ds → Fraction f → Exponent e → ds ++ (f ++ e) <+: cs →
      (ds ++ (f ++ e)).length < k ∨ (ds ++ (f ++ e)).length = k ∧ .number = s)
    (hmalformed : ∀ {ds f m : List Char}, Digits ds → Fraction f → Mark m → ds ++ (f ++ m) <+: cs →
      (ds ++ (f ++ m)).length < k ∨ (ds ++ (f ++ m)).length = k ∧ .malformedNumber = s) :
    Longest s (k + 1) (d :: cs) := by
  refine .cons hle hs fun s' l hl hpre => ?_
  rcases hl.of_digit hd with ⟨rfl, ds, f, e, rfl, hds, hf, he⟩ | ⟨rfl, ds, f, m, rfl, hds, hf, hm⟩ |
    ⟨hzero, x, l, rfl, hx, -⟩
  · exact hnumber hds hf he hpre
  · exact hmalformed hds hf hm hpre
  · obtain ⟨rest, rfl⟩ := hpre
    exact absurd hx (not_or.mpr (hhex hzero x rfl))

theorem longest_mantissa (hexp : exponentLengths (cs.drop (mantissaLength cs)) = none) :
    Longest .number (mantissaLength cs + 1) (d :: cs) := by
  obtain ⟨ds, f, htake, hds, hf⟩ := take_mantissa cs
  refine .decimal hd hhex (mantissaLength_le cs) ?_ (fun hds' hf' he' hpre => ?_) fun hds' hf' hm' hpre => ?_
  · rw [htake]
    simpa using Spells.number hd hds hf .none
  · rcases number_le hds' hf' he' hpre with hlen | ⟨mark, digits, heq, -⟩
    · exact (Nat.lt_or_eq_of_le hlen).imp_right fun h => ⟨h, rfl⟩
    · rw [hexp] at heq
      cases heq
  · obtain ⟨mark, digits, heq, -⟩ := malformed_le hds' hf' hm' hpre
    rw [hexp] at heq
    cases heq

/-- A mark without digits is longer than any number in front of it. -/
theorem longest_marked {mark : Nat} (hexp : exponentLengths (cs.drop (mantissaLength cs)) = some (mark, 0)) :
    Longest .malformedNumber (mantissaLength cs + mark + 1) (d :: cs) := by
  obtain ⟨ds, f, htake, hds, hf⟩ := take_mantissa cs
  obtain ⟨hm, hmark, -⟩ := exponentLengths_spec hexp
  have hpos : 0 < mark := by
    rcases Nat.eq_zero_or_pos mark with rfl | hpos
    · cases hm
    · exact hpos
  have hle := mantissaLength_le cs
  rw [List.length_drop] at hmark
  refine .decimal hd hhex (by omega) ?_ (fun hds' hf' he' hpre => ?_) fun hds' hf' hm' hpre => ?_
  · rw [List.take_add, htake, List.append_assoc]
    exact .malformedNumber hd hds hf hm
  · rcases number_le hds' hf' he' hpre with hlen | ⟨mark', digits, heq, hdigits, -⟩
    · exact .inl (by omega)
    · cases hexp.symm.trans heq
      cases hdigits
  · obtain ⟨mark', digits, heq, hlen⟩ := malformed_le hds' hf' hm' hpre
    cases hexp.symm.trans heq
    exact (Nat.lt_or_eq_of_le hlen).imp_right fun h => ⟨h, rfl⟩

theorem longest_exponent {mark digits : Nat} (hpos : 0 < digits)
    (hexp : exponentLengths (cs.drop (mantissaLength cs)) = some (mark, digits)) :
    Longest .number (mantissaLength cs + (mark + digits) + 1) (d :: cs) := by
  obtain ⟨ds, f, htake, hds, hf⟩ := take_mantissa cs
  obtain ⟨he, hlen⟩ := exponent_take hexp hpos
  have hle := mantissaLength_le cs
  rw [List.length_drop] at hlen
  refine .decimal hd hhex (by omega) ?_ (fun hds' hf' he' hpre => ?_) fun hds' hf' hm' hpre => ?_
  · rw [List.take_add, htake, List.append_assoc]
    exact .number hd hds hf he
  · rcases number_le hds' hf' he' hpre with hlen | ⟨mark', digits', heq, -, hlen⟩
    · exact .inl (by omega)
    · cases hexp.symm.trans heq
      exact (Nat.lt_or_eq_of_le hlen).imp_right fun h => ⟨h, rfl⟩
  · obtain ⟨mark', digits', heq, hlen⟩ := malformed_le hds' hf' hm' hpre
    cases hexp.symm.trans heq
    exact .inl (by omega)

theorem longest_decimal : Longest (decimalShape (d :: cs)).1 (decimalShape (d :: cs)).2 (d :: cs) := by
  have hbody : digitCount (d :: cs) + fractionLength ((d :: cs).drop (digitCount (d :: cs))) = mantissaLength cs + 1 := by
    have hdigits : digitCount (d :: cs) = digitCount cs + 1 := by simp [digitCount, hd]
    rw [hdigits, List.drop_succ_cons, Nat.add_right_comm]
    rfl
  simp only [decimalShape, hbody, List.drop_succ_cons]
  cases hexp : exponentLengths (cs.drop (mantissaLength cs)) with
  | none => exact longest_mantissa hd hhex hexp
  | some lengths =>
    obtain ⟨mark, digits⟩ := lengths
    cases digits with
    | zero =>
      show Longest .malformedNumber (mantissaLength cs + 1 + mark) (d :: cs)
      rw [Nat.add_right_comm]
      exact longest_marked hd hhex hexp
    | succ digits =>
      show Longest .number (mantissaLength cs + 1 + mark + (digits + 1)) (d :: cs)
      rw [Nat.add_assoc, Nat.add_right_comm]
      exact longest_exponent hd hhex (Nat.succ_pos digits) hexp

end

/-- In front of a hexadecimal mark no other number goes on. -/
theorem number_stops {x : Char} (hx : x = 'x' ∨ x = 'X') (hds : Digits ds) (hf : Fraction f)
    (htail : ∀ c ∈ tail.head?, c = 'e' ∨ c = 'E') (h : ds ++ (f ++ tail) <+: x :: cs) : ds ++ (f ++ tail) = [] := by
  have hdigits : digitCount (x :: cs) = 0 := by rcases hx with rfl | rfl <;> rfl
  have hfraction : fractionLength (x :: cs) = 0 := by rcases hx with rfl | rfl <;> rfl
  have hmantissa := prefix_mantissa hds hf htail h
  rw [hdigits, List.drop_zero, hfraction] at hmantissa
  have htailNil : tail = [] := by
    rcases hmantissa with ⟨hnil, -⟩ | ⟨-, hrest⟩
    · exact hnil
    · cases tail with
      | nil => rfl
      | cons c tail =>
        obtain ⟨rfl, -⟩ := List.cons_prefix_cons.mp hrest
        rcases htail c rfl with rfl | rfl <;> simp at hx
  have hlen : (ds ++ f).length = 0 := by
    rcases hmantissa with ⟨-, hle⟩ | ⟨heq, -⟩
    · exact Nat.le_zero.mp hle
    · exact heq
  rw [htailNil, List.append_nil]
  exact List.length_eq_zero_iff.mp hlen

/-- A zero and a hexadecimal mark, and the digits behind them. -/
theorem longest_hex {x : Char} (hx : x = 'x' ∨ x = 'X') (cs : List Char) :
    Longest (hexShape cs).1 (hexShape cs).2 ('0' :: x :: cs) := by
  have hshape : hexShape cs = (if (cs.takeWhile isHexDigit) = [] then .malformedNumber else .hexNumber,
      (cs.takeWhile isHexDigit).length + 1 + 1) := by
    unfold hexShape
    cases cs.takeWhile isHexDigit with
    | nil => rfl
    | cons d ds => simp [Nat.add_comm 2]
  rw [hshape]
  refine .cons (Nat.succ_le_succ run_le) ?_ fun s' l hl hpre => ?_
  · rw [List.take_succ_cons, take_run]
    split
    · rename_i hnil
      rw [hnil]
      exact .malformedHex hx
    · rename_i hne
      exact .hexNumber hx hne fun d hd => List.mem_takeWhile_imp hd
  · rcases hl.of_digit (by rfl) with ⟨rfl, ds, f, e, rfl, hds, hf, he⟩ | ⟨rfl, ds, f, m, rfl, hds, hf, hm⟩ |
        ⟨-, y, ds, rfl, -, hds, rfl⟩
    · rw [number_stops hx hds hf he.head hpre]
      exact .inl (Nat.succ_pos _)
    · have hhead : ∀ c ∈ m.head?, c = 'e' ∨ c = 'E' := by simpa using @Mark.head m [] hm
      rw [number_stops hx hds hf hhead hpre]
      exact .inl (Nat.succ_pos _)
    · have hrun := List.cons_prefix_cons.mp hpre
      have hle := length_le_run hds hrun.2
      simp only [List.length_cons]
      rcases Nat.lt_or_eq_of_le hle with hlt | heq
      · left
        omega
      · refine .inr ⟨by omega, ?_⟩
        simp only [← List.length_eq_zero_iff, heq]

theorem longest_number {d : Char} (hd : d.isDigit = true) (cs : List Char) :
    Longest (numberShape (d :: cs)).1 (numberShape (d :: cs)).2 (d :: cs) := by
  unfold numberShape
  split
  · rename_i rest heq
    cases heq
    exact longest_hex (.inl rfl) rest
  · rename_i rest heq
    cases heq
    exact longest_hex (.inr rfl) rest
  · rename_i hlower hupper
    refine longest_decimal hd fun hzero c hc => ?_
    obtain ⟨rest, rfl⟩ := List.head?_eq_some_iff.mp hc
    subst hzero
    exact ⟨fun h => hlower rest (h ▸ rfl), fun h => hupper rest (h ▸ rfl)⟩

/-- Where a number can end that begins with a point, a digit and these characters. -/
theorem point_le (hds : Digits ds) (he : Exponent e) (h : ds ++ e <+: cs) :
    (ds ++ e).length ≤ digitCount cs ∨
      ∃ mark digits, exponentLengths (cs.drop (digitCount cs)) = some (mark, digits) ∧ 0 < digits ∧
        (ds ++ e).length ≤ digitCount cs + (mark + digits) := by
  rw [List.length_append]
  rcases prefix_run (p := Char.isDigit) hds (fun c hc => (isDigit_of_mark (he.head c hc)).1) h with
    ⟨rfl, hle⟩ | ⟨hlen, hrest⟩
  · exact .inl hle
  · change ds.length = digitCount cs at hlen
    rcases exponent_le he hrest with rfl | ⟨mark, digits, heq, hpos, hle⟩
    · exact .inl (Nat.le_of_eq hlen)
    · exact .inr ⟨mark, digits, heq, hpos, by omega⟩

/-- A number that begins with its point. -/
theorem longest_point {c : Char} (hc : c.isDigit = true) (cs : List Char) :
    Longest (pointShape ('.' :: c :: cs)).1 (pointShape ('.' :: c :: cs)).2 ('.' :: c :: cs) := by
  have hbody : fractionLength ('.' :: c :: cs) = digitCount cs + 2 := by
    simp [fractionLength, digitCount, hc, Nat.add_comm 1]
  have hle : digitCount cs ≤ cs.length := run_le
  have hds := digits_take cs
  simp only [pointShape, hbody, List.drop_succ_cons]
  split
  · rename_i mark k hexp
    obtain ⟨he, hlen⟩ := exponent_take hexp (Nat.succ_pos k)
    rw [List.length_drop] at hlen
    rw [show digitCount cs + 2 + mark + (k + 1) = digitCount cs + (mark + (k + 1)) + 1 + 1 by omega]
    refine .cons (by simp; omega) ?_ fun s' l hl hpre => ?_
    · rw [List.take_succ_cons, List.take_add]
      exact .pointNumber hc hds he
    · rcases hl.of_dot with ⟨rfl, rfl⟩ | ⟨rfl, d, ds, e, rfl, -, hds, he⟩
      · exact .inl (Nat.succ_pos _)
      · rcases point_le hds he (List.cons_prefix_cons.mp hpre).2 with hlen | ⟨mark', digits', heq, -, hlen⟩
        · grind
        · cases hexp.symm.trans heq
          grind
  · rename_i hnone
    refine .cons (Nat.succ_le_succ hle) ?_ fun s' l hl hpre => ?_
    · rw [List.take_succ_cons]
      simpa using Spells.pointNumber hc hds .none
    · rcases hl.of_dot with ⟨rfl, rfl⟩ | ⟨rfl, d, ds, e, rfl, -, hds, he⟩
      · exact .inl (Nat.succ_pos _)
      · rcases point_le hds he (List.cons_prefix_cons.mp hpre).2 with hlen | ⟨mark, digits, heq, hpos, -⟩
        · grind
        · obtain ⟨k, rfl⟩ : ∃ k, digits = k + 1 := ⟨digits - 1, by omega⟩
          exact absurd heq (hnone mark k)

/-- A point that begins no number. -/
theorem longest_access (hcs : ∀ c ∈ cs.head?, c.isDigit = false) :
    Longest (punctShape ('.' :: cs)).1 (punctShape ('.' :: cs)).2 ('.' :: cs) := by
  refine longest_punct (p := .dot) (by rfl) fun s l hl hpre => ?_
  rcases hl.of_dot with ⟨rfl, rfl⟩ | ⟨rfl, d, ds, e, rfl, hd, -⟩
  · exact ⟨.dot, rfl, rfl⟩
  · obtain ⟨rest, rfl⟩ := hpre
    have hnot := hcs d rfl
    rw [hd] at hnot
    cases hnot

theorem longest_dot (cs : List Char) : Longest (dotShape ('.' :: cs)).1 (dotShape ('.' :: cs)).2 ('.' :: cs) := by
  cases cs with
  | nil => exact longest_access (by simp)
  | cons c cs =>
    by_cases hc : c.isDigit
    · simpa [dotShape, hc] using longest_point hc cs
    · simpa [dotShape, hc] using @longest_access (c :: cs) (by simpa using hc)

end

/-! ## All lexemes -/

section
variable {c : Char} {cs : List Char}

/-- Where no other lexeme begins, there is punctuation or nothing. -/
theorem punctShape_longest (hg : isGap c = false) (hw : isWordStart c = false) (hd : c.isDigit = false)
    (hq : ¬ (c = '"' ∨ c = '\'')) (hs : c ≠ '/') (hp : c ≠ '.') :
    Longest (punctShape (c :: cs)).1 (punctShape (c :: cs)).2 (c :: cs) ∨
      (punctShape (c :: cs)).1 = .stray ∧ ∀ s l, Spells s l → ¬ l <+: c :: cs := by
  cases h : Punct.ofStart? (c :: cs) with
  | some p => exact .inl (longest_punct h fun s l hl _ => hl.of_other hg hw hd hq hs hp)
  | none =>
    refine .inr ⟨by simp only [punctShape, h], fun s l hl hpre => ?_⟩
    cases l with
    | nil => exact absurd rfl hl.ne_nil
    | cons d l =>
      obtain ⟨rfl, -⟩ := List.cons_prefix_cons.mp hpre
      obtain ⟨p, rfl, heq⟩ := hl.of_other hg hw hd hq hs hp
      rw [heq] at hpre
      exact Punct.not_prefix_of_ofStart? h p hpre

/-- The shape that is found is that of the longest lexeme, or there is none. -/
theorem shape_longest (c : Char) (cs : List Char) :
    Longest (shape c cs).1 (shape c cs).2 (c :: cs) ∨
      (shape c cs).1 = .stray ∧ ∀ s l, Spells s l → ¬ l <+: c :: cs := by
  unfold shape
  by_cases hg : isGap c
  · rw [if_pos hg, Nat.add_comm]
    exact .inl (longest_gap hg)
  rw [if_neg hg]
  by_cases hw : isWordStart c
  · rw [if_pos hw, Nat.add_comm]
    exact .inl (longest_word hw)
  rw [if_neg hw]
  by_cases hd : c.isDigit
  · rw [if_pos hd]
    exact .inl (longest_number hd cs)
  rw [if_neg hd]
  by_cases hq : c = '"' ∨ c = '\''
  · rw [if_pos hq]
    have h := longest_quote hq cs
    rw [Nat.add_comm] at h
    exact .inl h
  rw [if_neg hq]
  by_cases hs : c = '/'
  · subst hs
    exact .inl (longest_slash cs)
  rw [if_neg hs]
  by_cases hp : c = '.'
  · subst hp
    exact .inl (longest_dot cs)
  rw [if_neg hp]
  exact punctShape_longest (by simpa using hg) (by simpa using hw) (by simpa using hd) hq hs hp

/-- A lexeme than which none is longer is what is found. -/
theorem shape_eq {s : Shape} {l : List Char} (hl : Spells s l) (hpre : l <+: c :: cs)
    (hmax : ∀ s' l', Spells s' l' → l' <+: c :: cs → l'.length ≤ l.length) : shape c cs = (s, l.length) := by
  rcases shape_longest c cs with h | ⟨-, hnone⟩
  · have hle := hmax _ _ h.spells (List.take_prefix _ _)
    rw [List.length_take_of_le h.le] at hle
    rcases h.longest s l hl hpre with hlt | ⟨hlen, hs⟩
    · omega
    · exact Prod.ext hs.symm hlen.symm
  · exact absurd hpre (hnone s l hl)

end

end Lexer

end Treewalk
