/-
  Treewalk.Proofs.Interning — names and texts belong together, whatever was interned before and in between.

  A table is `Consistent` if its texts are distinct and each has the name of its position, and no other text
  has a name. That holds of every table that is made from the empty one, however large it grows. A name holds
  positions below 2 ^ 32 only: as long as no more texts are in the table, a text has the name `n` exactly if it
  stands at the position `n` (`Consistent.find?_eq_some_iff`). One text more, and the last name is that of two
  texts (`Consistent.intern_full`).

  Nothing that is in a table is ever moved (`Extends`): a text that has got its name keeps it, and a position
  keeps its text. So what is known of a call when it ends holds of all later tables. Together
  `interned_faithful`.

  Callers who share a table look a text up in one step and enter it in another; in between the table may be
  changed by others. As the text is then looked up again, the calls do what they do when they are made one after
  the other, in the order in which they end (`Shared.reachable_iff`).
-/

import Treewalk.Interner
import Mathlib.Algebra.Group.Nat.Defs
import Mathlib.Data.List.Induction
import Mathlib.Data.List.Nodup

namespace Treewalk

namespace Interner

section
variable {t t' t'' : Interner} {s : String} {n : Name}

/-! ## Texts with their names -/

/-- The texts are distinct, and exactly these have names, each that of its position. -/
structure Consistent (t : Interner) : Prop where
  nodup : t.texts.toList.Nodup
  find?_eq_some : ∀ s n, t.find? s = some n ↔ ∃ i, t.texts[i]? = some s ∧ n = Name.ofIndex i

namespace Consistent

theorem empty : Consistent ⟨[], #[]⟩ where
  nodup := List.nodup_nil
  find?_eq_some s n := by simp [find?, Table.get?]

theorem find?_getElem? (h : t.Consistent) {i : Nat} (hi : t.texts[i]? = some s) :
    t.find? s = some (Name.ofIndex i) := (h.find?_eq_some s _).mpr ⟨i, hi, rfl⟩

theorem mem_texts (h : t.Consistent) : s ∈ t.texts ↔ (t.find? s).isSome := by
  rw [Array.mem_iff_getElem?, Option.isSome_iff_exists]
  constructor
  · rintro ⟨i, hi⟩
    exact ⟨_, h.find?_getElem? hi⟩
  · rintro ⟨n, hn⟩
    obtain ⟨i, hi, -⟩ := (h.find?_eq_some s n).mp hn
    exact ⟨i, hi⟩

theorem not_mem_texts (h : t.Consistent) (hs : t.find? s = none) : s ∉ t.texts := by
  rw [h.mem_texts, hs]
  exact Bool.false_ne_true

/-- A new text stands at the end and nowhere else, all others stand where they stood. -/
theorem find?_intern_of_none (h : t.Consistent) (hs : t.find? s = none) (r : String) (n : Name) :
    (t.intern s).2.find? r = some n ↔ ∃ i, (t.intern s).2.texts[i]? = some r ∧ n = Name.ofIndex i := by
  have hname : (t.intern s).1 = Name.ofIndex t.size := by rw [intern_of_find?_none hs]
  rw [find?_intern, hname]
  simp only [getElem?_intern_of_none hs]
  by_cases hr : s = r
  · subst hr
    rw [if_pos rfl, Option.some_inj]
    constructor
    · rintro rfl
      exact ⟨t.size, if_pos rfl, rfl⟩
    · rintro ⟨i, hi, rfl⟩
      split at hi
      · rename_i hlast
        rw [hlast]
      · exact absurd (Array.mem_of_getElem? hi) (h.not_mem_texts hs)
  · rw [if_neg hr, h.find?_eq_some]
    refine exists_congr fun i => and_congr_left fun _ => ?_
    split
    · rename_i hlast
      rw [hlast, size, Array.getElem?_size, Option.some_inj]
      exact ⟨nofun, fun hsr => absurd hsr hr⟩
    · rfl

theorem intern (h : t.Consistent) (s : String) : (t.intern s).2.Consistent := by
  cases hs : t.find? s with
  | some n => rwa [intern_of_find? hs]
  | none =>
    refine ⟨?_, h.find?_intern_of_none hs⟩
    rw [intern_of_find?_none hs, Array.toList_push, ← List.concat_eq_append]
    exact h.nodup.concat fun hmem => h.not_mem_texts hs (Array.mem_toList_iff.mp hmem)

theorem internAll (h : t.Consistent) (calls : List String) : (t.internAll calls).2.Consistent := by
  induction calls generalizing t with
  | nil => exact h
  | cons s calls ih => exact ih (h.intern s)

theorem new : new.Consistent := empty.internAll wellKnown

/-- No name is wider than 32 bits. -/
theorem index_le (h : t.Consistent) (hs : t.find? s = some n) : n.index ≤ Name.maxIndex := by
  obtain ⟨i, -, rfl⟩ := (h.find?_eq_some s n).mp hs
  exact Nat.min_le_right i Name.maxIndex

/-- As long as there are names, a text has one exactly if it stands where the name says. -/
theorem find?_eq_some_iff (h : t.Consistent) (hsize : t.size ≤ 2 ^ 32) :
    t.find? s = some n ↔ t.texts[n.index]? = some s := by
  have hname {i : Nat} (hi : t.texts[i]? = some s) : Name.ofIndex i = ⟨i⟩ := by
    have hlt : i < t.size := (Array.getElem?_eq_some_iff.mp hi).1
    exact Name.ofIndex_of_le (Nat.le_of_lt_succ (Nat.lt_of_lt_of_le hlt hsize))
  rw [h.find?_eq_some]
  constructor
  · rintro ⟨i, hi, rfl⟩
    rwa [hname hi]
  · intro hn
    exact ⟨n.index, hn, (hname hn).symm⟩

/-- Then different texts have different names. -/
theorem name_inj (h : t.Consistent) (hsize : t.size ≤ 2 ^ 32) {r : String} {m : Name} (hr : t.find? r = some m)
    (hs : t.find? s = some n) : m = n ↔ r = s := by
  constructor
  · rintro rfl
    rw [h.find?_eq_some_iff hsize] at hr hs
    exact Option.some_inj.mp (hr.symm.trans hs)
  · rintro rfl
    exact Option.some_inj.mp (hr.symm.trans hs)

end Consistent

/-! ## What later calls leave as it is -/

/-- Nothing that is in the first table is moved in the second. -/
structure Extends (t t' : Interner) : Prop where
  getElem? : ∀ (i : Nat) (s : String), t.texts[i]? = some s → t'.texts[i]? = some s
  find? : ∀ (s : String) (n : Name), t.find? s = some n → t'.find? s = some n

namespace Extends

theorem refl (t : Interner) : t.Extends t := ⟨fun _ _ => id, fun _ _ => id⟩

theorem trans (h : t.Extends t') (h' : t'.Extends t'') : t.Extends t'' :=
  ⟨fun i s hi => h'.getElem? i s (h.getElem? i s hi), fun s n hn => h'.find? s n (h.find? s n hn)⟩

theorem intern (t : Interner) (s : String) : t.Extends (t.intern s).2 := by
  cases hs : t.find? s with
  | some n =>
    rw [intern_of_find? hs]
    exact refl t
  | none =>
    refine ⟨fun i r hi => ?_, fun r n hn => ?_⟩
    · have hlt : i < t.size := (Array.getElem?_eq_some_iff.mp hi).1
      rw [getElem?_intern_of_none hs, if_neg (Nat.ne_of_lt hlt), hi]
    · have hne : s ≠ r := by
        rintro rfl
        cases hs.symm.trans hn
      rw [find?_intern, if_neg hne, hn]

theorem internAll (t : Interner) (calls : List String) : t.Extends (t.internAll calls).2 := by
  induction calls generalizing t with
  | nil => exact refl t
  | cons s calls ih => exact (intern t s).trans (ih _)

end Extends

/-- The name that a call gives a text is still the text's name after all calls. -/
theorem find?_internAll (t : Interner) (calls : List String) :
    ∀ c ∈ (t.internAll calls).1, (t.internAll calls).2.find? c.1 = some c.2 := by
  induction calls generalizing t with
  | nil => exact List.forall_mem_nil _
  | cons s calls ih =>
    have hfound : (t.intern s).2.find? s = some (t.intern s).1 := by rw [find?_intern, if_pos rfl]
    exact List.forall_mem_cons.mpr ⟨(Extends.internAll _ calls).find? s _ hfound, ih (t.intern s).2⟩

/-- What is interned gets a name, and nothing else does. -/
theorem isSome_find?_internAll (t : Interner) (calls : List String) (r : String) :
    ((t.internAll calls).2.find? r).isSome ↔ (t.find? r).isSome ∨ r ∈ calls := by
  induction calls generalizing t with
  | nil => simp
  | cons s calls ih =>
    rw [internAll_cons, ih, find?_intern, List.mem_cons, ← or_assoc]
    refine or_congr_left ?_
    by_cases hr : s = r
    · simp [hr]
    · rw [if_neg hr, or_iff_left (Ne.symm hr)]

theorem map_fst_internAll (t : Interner) (calls : List String) : (t.internAll calls).1.map Prod.fst = calls := by
  induction calls generalizing t with
  | nil => rfl
  | cons s calls ih => rw [internAll_cons, List.map_cons, ih]

theorem texts_new : new.texts = wellKnown.toArray := by decide

/-- A well-known text stands at its place in every table that a new one has grown to. -/
theorem Extends.intern_wellKnown (h : new.Extends t) {i : Nat} (hi : wellKnown[i]? = some s) :
    t.intern s = (⟨i⟩, t) ∧ t.lookup ⟨i⟩ = s := by
  have hnew : new.texts[i]? = some s := by rw [texts_new, List.getElem?_toArray, hi]
  have hsize : new.size ≤ 2 ^ 32 := by rw [size, texts_new]; decide
  have hname : new.find? s = some ⟨i⟩ := (Consistent.new.find?_eq_some_iff hsize).mpr hnew
  exact ⟨intern_of_find? (h.find? s _ hname), lookup_of_getElem? (h.getElem? i s hnew)⟩

/-- Where names have run out, a further text gets the name of another. -/
theorem Consistent.intern_full (h : t.Consistent) (hfull : 2 ^ 32 ≤ t.size) (hs : t.find? s = none) :
    ∃ r, r ≠ s ∧ t.find? r = some (t.intern s).1 ∧ (t.intern s).2.lookup (t.intern s).1 = r := by
  have hlast : Name.maxIndex < t.texts.size := hfull
  have hr : t.texts[Name.maxIndex]? = some t.texts[Name.maxIndex] := Array.getElem?_eq_getElem hlast
  have hname : (t.intern s).1 = ⟨Name.maxIndex⟩ := by
    rw [intern_of_find?_none hs]
    exact Name.ofIndex_of_ge (Nat.le_of_lt hlast)
  have hfound : t.find? t.texts[Name.maxIndex] = some ⟨Name.maxIndex⟩ := by
    rw [h.find?_getElem? hr, Name.ofIndex_of_ge (Nat.le_refl _)]
  refine ⟨t.texts[Name.maxIndex], ?_, hname ▸ hfound, ?_⟩
  · intro heq
    rw [heq, hs] at hfound
    cases hfound
  · rw [hname]
    exact lookup_of_getElem? ((Extends.intern t s).getElem? _ _ hr)

end

/-- After any calls on a new table that leave no more texts in it than there are names: the texts in it are the well-known
    ones and those that were interned, each of them once, and each has the name of its position. Two calls, whenever
    they happen, give the same name exactly if they are for the same text. After all further calls a name is still
    read as its text, and to intern the text again gives the name and changes nothing. The well-known texts have
    the names they started with, the empty text the name that is kept for it. -/
theorem interned_faithful (calls : List String) (hsize : (new.internAll calls).2.size ≤ 2 ^ 32) :
    let named := (new.internAll calls).1
    let t := (new.internAll calls).2
    named.map Prod.fst = calls ∧ (∀ s, s ∈ t.texts ↔ s ∈ wellKnown ∨ s ∈ calls) ∧ t.texts.toList.Nodup ∧
      (∀ (s : String) (i : Nat), t.names.get? s = some ⟨i⟩ ↔ t.texts[i]? = some s) ∧
      (∀ c ∈ named, ∀ d ∈ named, c.2 = d.2 ↔ c.1 = d.1) ∧
      (∀ c ∈ named, ∀ later : List String, (t.internAll later).2.lookup c.2 = c.1 ∧
        (t.internAll later).2.intern c.1 = (c.2, (t.internAll later).2)) ∧
      (∀ (i : Nat) (s : String), wellKnown[i]? = some s → t.intern s = (⟨i⟩, t) ∧ t.lookup ⟨i⟩ = s) ∧
      t.intern "" = (Name.empty, t) ∧ t.lookup Name.empty = "" := by
  intro named t
  have hconsistent : t.Consistent := Consistent.new.internAll calls
  have hkept : new.Extends t := Extends.internAll new calls
  have hfound : ∀ c ∈ named, t.find? c.1 = some c.2 := find?_internAll new calls
  refine ⟨map_fst_internAll new calls, fun s => ?_, hconsistent.nodup, fun s i => hconsistent.find?_eq_some_iff hsize,
    fun c hc d hd => hconsistent.name_inj hsize (hfound c hc) (hfound d hd), fun c hc later => ?_,
    fun i s hi => hkept.intern_wellKnown hi, hkept.intern_wellKnown (i := 0) rfl⟩
  · rw [hconsistent.mem_texts, isSome_find?_internAll, ← Consistent.new.mem_texts, texts_new, List.mem_toArray]
  · have hplace : t.texts[c.2.index]? = some c.1 := (hconsistent.find?_eq_some_iff hsize).mp (hfound c hc)
    have hlater : t.Extends (t.internAll later).2 := Extends.internAll t later
    exact ⟨lookup_of_getElem? (hlater.getElem? _ _ hplace), intern_of_find? (hlater.find? _ _ (hfound c hc))⟩

/-- `x` is interned twice, before and after `y`: it has the name behind the well-known ones and keeps it. -/
theorem interned_faithful_twice :
    let named := (new.internAll ["x", "log", "y", "x"]).1
    let t := (new.internAll ["x", "log", "y", "x"]).2
    t.size ≤ 2 ^ 32 ∧ named = [("x", ⟨9⟩), ("log", ⟨3⟩), ("y", ⟨10⟩), ("x", ⟨9⟩)] ∧
      ∀ later : List String, (t.internAll later).2.lookup ⟨9⟩ = "x" ∧
        (t.internAll later).2.intern "x" = (⟨9⟩, (t.internAll later).2) := by
  intro named t
  have hsize : t.size ≤ 2 ^ 32 := by decide
  have hnamed : named = [("x", ⟨9⟩), ("log", ⟨3⟩), ("y", ⟨10⟩), ("x", ⟨9⟩)] := by decide
  have hx : ("x", ⟨9⟩) ∈ named := by
    rw [hnamed]
    exact List.mem_cons_self
  obtain ⟨-, -, -, -, -, hlater, -⟩ := interned_faithful ["x", "log", "y", "x"] hsize
  exact ⟨hsize, hnamed, hlater _ hx⟩

/-! ## Callers who share a table -/

/-- A table in use: the texts that callers have looked up in vain and not yet entered, and the calls that ended. -/
structure Shared where
  table : Interner
  waiting : List String
  ended : List (String × Name)

namespace Shared

/-- What one caller does while the table is its own. -/
inductive Step : Shared → Shared → Prop
  | found {w : Shared} {s : String} {n : Name} : w.table.find? s = some n →
      Step w { w with ended := w.ended ++ [(s, n)] }
  | missed {w : Shared} {s : String} : w.table.find? s = none → Step w { w with waiting := s :: w.waiting }
  | entered {w : Shared} {s : String} : s ∈ w.waiting → Step w
      ⟨(w.table.enter s).2, w.waiting.erase s, w.ended ++ [(s, (w.table.enter s).1)]⟩

inductive Reachable : Shared → Prop
  | new : Reachable ⟨new, [], []⟩
  | step {w w' : Shared} : Reachable w → Step w w' → Reachable w'

theorem Reachable.internAll {w : Shared} (h : w.Reachable) :
    Interner.new.internAll (w.ended.map Prod.fst) = (w.ended, w.table) := by
  induction h with
  | new => rfl
  | step _ hstep ih =>
    cases hstep with
    | found hs => rw [List.map_append, List.map_singleton, internAll_concat, ih, intern_of_find? hs]
    | missed _ => exact ih
    | entered _ => rw [List.map_append, List.map_singleton, internAll_concat, ih, enter_eq_intern]

theorem reachable_internAll (texts : List String) :
    Reachable ⟨(Interner.new.internAll texts).2, [], (Interner.new.internAll texts).1⟩ := by
  induction texts using List.reverseRecOn with
  | nil => exact .new
  | append_singleton texts s ih =>
    rw [internAll_concat]
    cases hs : (Interner.new.internAll texts).2.find? s with
    | some n =>
      rw [intern_of_find? hs]
      exact .step ih (.found hs)
    | none =>
      have hentered := Step.entered (w := ⟨(Interner.new.internAll texts).2, [s], (Interner.new.internAll texts).1⟩)
        (List.mem_singleton_self s)
      rw [List.erase_cons_head, enter_eq_intern] at hentered
      exact .step (.step ih (.missed hs)) hentered

/-- What callers who share a new table bring about is what the same calls bring about one after the other, in the
    order in which they ended. -/
theorem reachable_iff {t : Interner} {calls : List (String × Name)} :
    (∃ waiting, Reachable ⟨t, waiting, calls⟩) ↔ Interner.new.internAll (calls.map Prod.fst) = (calls, t) := by
  constructor
  · rintro ⟨waiting, h⟩
    exact h.internAll
  · intro h
    have hreachable := reachable_internAll (calls.map Prod.fst)
    rw [h] at hreachable
    exact ⟨[], hreachable⟩

end Shared

end Interner

end Treewalk
