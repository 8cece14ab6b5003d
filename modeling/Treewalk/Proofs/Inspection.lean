/-
  Treewalk.Proofs.Inspection — what the console shows of data tells them apart.

  Each value is shown with its end: words (keywords and numbers) run up to a comma or a blank, a string up
  to the first mark like its own that is not behind a backslash, an array up to its bracket. So of what is
  shown in front of a comma, a blank or nothing, value and rest can be told (`Told`): proved for each kind of
  value, and for the elements of an array one by one (`following_told`).

  Proved: two values of data, arrays nested three deep at most, show the same if and only if they are the same
  up to the sign of zeros (`inspect_eq_iff`). Deeper arrays are only named.
-/

import Treewalk.Proofs.NumberKinds
import Treewalk.Proofs.Unquoting

namespace Treewalk

/-! ## Quotes -/

namespace Quoted

/-- The marks strings are quoted with. -/
def marks : List Char := ['\'', '"', '`']

theorem mark_mem (cs : List Char) : mark cs ∈ marks := by
  unfold mark
  split
  · decide
  · split
    · decide
    · split <;> decide

section
variable {q c c' e : Char} {cs cs' s s' : List Char}

/-- The letter of a control character is that of no other, and no character that stands for itself. -/
theorem controls_inj (h : (e, c) ∈ Escape.controls) (h' : (e, c') ∈ Escape.controls) : c = c' := by
  have hall : ∀ p ∈ Escape.controls, ∀ p' ∈ Escape.controls, p.1 = p'.1 → p.2 = p'.2 := by decide
  exact hall _ h _ h' rfl

variable (hq : q ∈ marks)
include hq

theorem not_control (hc : c = '\\' ∨ c = q) : (c, c') ∉ Escape.controls := by
  have hall : ∀ p ∈ Escape.controls, p.1 ∉ '\\' :: marks := by decide
  intro h
  refine hall _ h ?_
  rcases hc with hc | hc
  · exact List.mem_cons.mpr (.inl hc)
  · exact List.mem_cons_of_mem _ (hc ▸ hq)

/-- What a character is written as tells it. -/
theorem escapeChar_append_inj (h : escapeChar q c ++ s = escapeChar q c' ++ s') : c = c' ∧ s = s' := by
  obtain ⟨e, hc, he⟩ | ⟨hc, hself⟩ | ⟨hc, -, hslash, -⟩ := escapeChar_cases q c
  all_goals
    obtain ⟨e', hc', he'⟩ | ⟨hc', hself'⟩ | ⟨hc', -, hslash', -⟩ := escapeChar_cases q c'
    all_goals
      rw [hc, hc'] at h
      simp only [List.cons_append, List.nil_append, List.cons.injEq, true_and] at h
  · obtain ⟨rfl, rfl⟩ := h
    exact ⟨controls_inj he he', rfl⟩
  · obtain ⟨rfl, rfl⟩ := h
    exact absurd he (not_control hq hself')
  · exact absurd h.1.symm hslash'
  · obtain ⟨rfl, rfl⟩ := h
    exact absurd he' (not_control hq hself)
  · exact h
  · exact absurd h.1.symm hslash'
  · exact absurd h.1 hslash
  · exact absurd h.1 hslash
  · exact h

/-- No character is written with a mark in front. -/
theorem mark_ne_escapeChar (h : q :: s = escapeChar q c ++ s') : False := by
  have hmark : q ≠ '\\' := by
    rintro rfl
    exact absurd hq (by decide)
  obtain ⟨e, hc, -⟩ | ⟨hc, -⟩ | ⟨hc, hplain, -⟩ := escapeChar_cases q c
  all_goals rw [hc] at h
  · exact hmark (List.cons.inj h).1
  · exact hmark (List.cons.inj h).1
  · exact hplain (List.cons.inj h).1.symm

/-- The mark at the end is the first that is not behind a backslash. -/
theorem body_append_inj (h : cs.flatMap (escapeChar q) ++ q :: s = cs'.flatMap (escapeChar q) ++ q :: s') :
    cs = cs' ∧ s = s' := by
  induction cs generalizing cs' with
  | nil =>
    cases cs' with
    | nil => exact ⟨rfl, (List.cons.inj h).2⟩
    | cons c' cs' =>
      rw [List.flatMap_cons, List.append_assoc] at h
      exact (mark_ne_escapeChar hq h).elim
  | cons c cs ih =>
    cases cs' with
    | nil =>
      rw [List.flatMap_cons, List.append_assoc] at h
      exact (mark_ne_escapeChar hq h.symm).elim
    | cons c' cs' =>
      rw [List.flatMap_cons, List.flatMap_cons, List.append_assoc, List.append_assoc] at h
      obtain ⟨rfl, hrest⟩ := escapeChar_append_inj hq h
      obtain ⟨rfl, hs⟩ := ih hrest
      exact ⟨rfl, hs⟩

end

/-- A string is told from what stands behind it. -/
theorem encode_append_inj {cs cs' s s' : List Char} (h : encode cs ++ s = encode cs' ++ s') : cs = cs' ∧ s = s' := by
  simp only [encode, List.cons_append, List.append_assoc, List.nil_append] at h
  obtain ⟨hmark, h⟩ := List.cons.inj h
  rw [hmark] at h
  exact body_append_inj (mark_mem cs') h

end Quoted

namespace Value

open Decimal (Same numberText)

/-! ## Data -/

/-- Keywords and numbers. -/
inductive IsWord : Value → Prop
  | undefined : IsWord .undefined
  | null : IsWord .null
  | bool (b : Bool) : IsWord (.bool b)
  | number (x : Float) : IsWord (.number x)

/-- Words, strings, and arrays of such nested at most so many levels deep. -/
inductive IsData : Nat → Value → Prop
  | word {n : Nat} {v : Value} : IsWord v → IsData n v
  | string {n : Nat} (s : String) : IsData n (.string s)
  | array {n : Nat} {es : List Value} : (∀ e ∈ es, IsData n e) → IsData (n + 1) (.array es)

mutual

/-- The same data. Zero and negative zero count as one number, and so do all that are none. -/
inductive Alike : Value → Value → Prop
  | undefined : Alike .undefined .undefined
  | null : Alike .null .null
  | bool (b : Bool) : Alike (.bool b) (.bool b)
  | number {x y : Float} : Same x y → Alike (.number x) (.number y)
  | string (s : String) : Alike (.string s) (.string s)
  | array {es fs : List Value} : AlikeAll es fs → Alike (.array es) (.array fs)

inductive AlikeAll : List Value → List Value → Prop
  | nil : AlikeAll [] []
  | cons {e f : Value} {es fs : List Value} : Alike e f → AlikeAll es fs → AlikeAll (e :: es) (f :: fs)

end

mutual

theorem Alike.inspectAt_eq (depth : Nat) : ∀ {v w : Value}, Alike v w → v.inspectAt depth = w.inspectAt depth
  | _, _, .array .nil => rfl
  | _, _, .array (.cons he hes) => by
    simp only [inspectAt, Alike.inspectAt_eq (depth + 1) he, AlikeAll.inspectAll_eq (depth + 1) hes]
  | _, _, .number h => by
    simp only [inspectAt, text]
    exact Decimal.numberText_inj.mpr h
  | _, _, .undefined | _, _, .null | _, _, .bool _ | _, _, .string _ => rfl

theorem AlikeAll.inspectAll_eq (depth : Nat) : ∀ {es fs : List Value}, AlikeAll es fs →
    inspectAll depth es = inspectAll depth fs
  | _, _, .nil => rfl
  | _, _, .cons he hes => by rw [inspectAll, inspectAll, Alike.inspectAt_eq depth he, AlikeAll.inspectAll_eq depth hes]

end

/-! ## Words -/

/-- What words are written with. -/
def inWord (c : Char) : Bool := c.isAlphanum || ['+', '-', '.'].contains c

/-- What may stand behind a value. -/
def Stops (cs : List Char) : Prop := ∀ c ∈ cs.head?, c = ',' ∨ c = ' '

section
variable {v w : Value} {depth n : Nat} {cs cs' r r' : List Char}

theorem IsWord.inspectAt_eq (h : IsWord v) (depth : Nat) : v.inspectAt depth = v.text := by cases h <;> rfl

theorem IsWord.chars (h : IsWord v) : ∀ c ∈ v.text.toList, inWord c = true := by
  intro c hc
  have hall {s : String} (hs : s.toList.all inWord = true) (hc : c ∈ s.toList) : inWord c = true :=
    List.all_eq_true.mp hs c hc
  cases h with
  | undefined => exact @hall "undefined" rfl hc
  | null => exact @hall "null" rfl hc
  | bool b =>
    cases b
    · exact @hall "false" rfl hc
    · exact @hall "true" rfl hc
  | number x =>
    rcases Decimal.numberText_chars hc with hdigit | hmark
    · simp [inWord, Char.isAlphanum, hdigit]
    · exact @hall "-+.eInfityNa" rfl hmark

/-- Only a text that comes back when it is read and written is one of a number. -/
theorem numberText_ne {s : String} (h : numberText (NumberText.read s) ≠ s) (x : Float) : numberText x ≠ s := by
  rintro rfl
  refine h (Decimal.numberText_inj.mpr ?_)
  rw [Decimal.read_text]
  split
  · exact .inr (.inl ⟨rfl, ‹_›⟩)
  · exact .inl rfl

theorem IsWord.ne_nil (h : IsWord v) : v.text.toList ≠ [] := by
  intro hnil
  replace hnil : v.text = "" := String.toList_inj.mp hnil
  cases h with
  | undefined => exact absurd hnil (by decide)
  | null => exact absurd hnil (by decide)
  | bool b => exact absurd hnil (by cases b <;> decide)
  | number x => exact numberText_ne (by decide) x hnil

/-- Words are told apart by their texts. -/
theorem IsWord.alike (hv : IsWord v) (hw : IsWord w) (h : v.text = w.text) : Alike v w := by
  have hundefined := @numberText_ne "undefined" (by decide)
  have hnull := @numberText_ne "null" (by decide)
  have hbool (b : Bool) := @numberText_ne (text (.bool b)) (by cases b <;> decide)
  cases hv with
  | undefined =>
    cases hw with
    | undefined => exact .undefined
    | null => exact absurd h (by decide)
    | bool b => exact absurd h (by cases b <;> decide)
    | number x => exact absurd h.symm (hundefined x)
  | null =>
    cases hw with
    | undefined => exact absurd h (by decide)
    | null => exact .null
    | bool b => exact absurd h (by cases b <;> decide)
    | number x => exact absurd h.symm (hnull x)
  | bool b =>
    cases hw with
    | undefined => exact absurd h (by cases b <;> decide)
    | null => exact absurd h (by cases b <;> decide)
    | bool b' =>
      cases b <;> cases b'
      case false.false | true.true => exact .bool _
      all_goals exact absurd h (by decide)
    | number x => exact absurd h.symm (hbool b x)
  | number x =>
    cases hw with
    | undefined => exact absurd h (hundefined x)
    | null => exact absurd h (hnull x)
    | bool b => exact absurd h (hbool b x)
    | number y => exact .number (Decimal.numberText_inj.mp h)

/-- A word ends where something else begins. -/
theorem word_append_inj (hcs : ∀ c ∈ cs, inWord c = true) (hcs' : ∀ c ∈ cs', inWord c = true) (hr : Stops r)
    (hr' : Stops r') (h : cs ++ r = cs' ++ r') : cs = cs' ∧ r = r' := by
  have hstop {r : List Char} (hr : Stops r) : ∀ c ∈ r.head?, inWord c = false := fun c hc => by
    rcases hr c hc with rfl | rfl <;> rfl
  exact run_append_inj hcs hcs' (hstop hr) (hstop hr') h

end

/-! ## Arrays -/

/-- Elements of an array behind others, and the end of it. -/
def following (depth : Nat) (vs : List Value) : List Char :=
  vs.flatMap (fun v => ',' :: ' ' :: (v.inspectAt depth).toList) ++ [' ', ']']

theorem following_cons (depth : Nat) (v : Value) (vs : List Value) :
    following depth (v :: vs) = ',' :: ' ' :: ((v.inspectAt depth).toList ++ following depth vs) := by
  simp [following]

theorem elements_toList (depth : Nat) (v : Value) (vs : List Value) :
    ',' :: ' ' :: ((", ".intercalate (v.inspectAt depth :: inspectAll depth vs)).toList ++ [' ', ']']) =
      following depth (v :: vs) := by
  induction vs generalizing v with
  | nil => rw [inspectAll, String.intercalate_singleton, following_cons, following, List.flatMap_nil, List.nil_append]
  | cons w vs ih =>
    rw [inspectAll, String.intercalate_cons_cons, String.toList_append, String.toList_append, List.append_assoc,
      List.append_assoc, following_cons, ← ih w]
    rfl

/-- All elements are shown like the ones behind others, but for a bracket in place of the first comma. -/
theorem inspectAt_array {depth : Nat} (hdepth : depth ≤ inspectDepth) (v : Value) (vs : List Value) :
    ∃ tail, (inspectAt depth (.array (v :: vs))).toList = '[' :: ' ' :: tail ∧
      following (depth + 1) (v :: vs) = ',' :: ' ' :: tail := by
  refine ⟨_, ?_, (elements_toList (depth + 1) v vs).symm⟩
  rw [inspectAt, if_neg (not_lt.mpr hdepth), String.toList_append, String.toList_append, List.append_assoc]
  rfl

theorem following_stops (depth : Nat) (vs : List Value) (r : List Char) : Stops (following depth vs ++ r) := by
  intro c hc
  cases vs with
  | nil =>
    cases hc
    exact .inr rfl
  | cons v vs =>
    cases hc
    exact .inl rfl

/-! ## What values begin with -/

/-- A character of a word, a mark or a bracket. -/
inductive Lead
  | word
  | mark
  | bracket
deriving DecidableEq

def lead : Value → Lead
  | .string _ => .mark
  | .array _ => .bracket
  | _ => .word

def leadOf (c : Char) : Lead := if inWord c then .word else if c ∈ Quoted.marks then .mark else .bracket

section
variable {v w : Value} {depth n : Nat} {r r' : List Char}

theorem leadOf_mark {q : Char} (hq : q ∈ Quoted.marks) : leadOf q = .mark := by fin_cases hq <;> rfl

theorem IsWord.lead_eq (h : IsWord v) : lead v = .word := by cases h <;> rfl

theorem IsData.lead_spec (h : IsData n v) (hdepth : depth + n ≤ inspectDepth + 1) :
    ∃ c cs, (v.inspectAt depth).toList = c :: cs ∧ leadOf c = lead v := by
  cases h with
  | word hv =>
    rw [hv.inspectAt_eq, hv.lead_eq]
    obtain ⟨c, cs, htext⟩ := List.exists_cons_of_ne_nil hv.ne_nil
    have hc := hv.chars c (htext ▸ List.mem_cons_self)
    exact ⟨c, cs, htext, if_pos hc⟩
  | string s => exact ⟨Quoted.mark s.toList, _, String.toList_ofList, leadOf_mark (Quoted.mark_mem s.toList)⟩
  | @array n es hes =>
    cases es with
    | nil => exact ⟨'[', [']'], by rw [inspectAt]; rfl, rfl⟩
    | cons e es =>
      obtain ⟨tail, hshown, -⟩ := inspectAt_array (show depth ≤ inspectDepth by omega) e es
      exact ⟨'[', ' ' :: tail, hshown, rfl⟩

theorem lead_eq (hv : IsData n v) (hw : IsData n w) (hdepth : depth + n ≤ inspectDepth + 1)
    (h : (v.inspectAt depth).toList ++ r = (w.inspectAt depth).toList ++ r') : lead v = lead w := by
  obtain ⟨c, cs, hcs, hc⟩ := hv.lead_spec hdepth
  obtain ⟨c', cs', hcs', hc'⟩ := hw.lead_spec hdepth
  rw [hcs, hcs'] at h
  rw [← hc, ← hc', (List.cons.inj h).1]

end

/-! ## Data told apart -/

/-- In front of what may stand there, such a value is told from all others, and from what stands behind it. -/
def Told (depth n : Nat) (v : Value) : Prop :=
  ∀ (w : Value) (r r' : List Char), IsData n w → Stops r → Stops r' →
    (v.inspectAt depth).toList ++ r = (w.inspectAt depth).toList ++ r' → Alike v w ∧ r = r'

section
variable {v : Value} {depth n : Nat} {vs ws : List Value} {r r' : List Char}

theorem word_told (hdepth : depth + n ≤ inspectDepth + 1) (hv : IsWord v) : Told depth n v := by
  intro w r r' hw hr hr' h
  have hlead := lead_eq (.word hv) hw hdepth h
  rw [hv.lead_eq] at hlead
  cases hw with
  | word hw =>
    rw [hv.inspectAt_eq, hw.inspectAt_eq] at h
    obtain ⟨htext, hrest⟩ := word_append_inj hv.chars hw.chars hr hr' h
    exact ⟨hv.alike hw (String.toList_inj.mp htext), hrest⟩
  | string s => cases hlead
  | array _ => cases hlead

theorem string_told (hdepth : depth + n ≤ inspectDepth + 1) (s : String) : Told depth n (.string s) := by
  intro w r r' hw _ _ h
  have hlead := lead_eq (.string s) hw hdepth h
  cases hw with
  | word hw =>
    rw [hw.lead_eq] at hlead
    cases hlead
  | string s' =>
    rw [inspectAt, inspectAt, quoted, quoted, String.toList_ofList, String.toList_ofList] at h
    obtain ⟨htext, hrest⟩ := Quoted.encode_append_inj h
    obtain rfl := String.toList_inj.mp htext
    exact ⟨.string s, hrest⟩
  | array _ => cases hlead

/-- If each element is told from what stands behind it, so are all of them from the end of the array. -/
theorem following_told (hvs : ∀ v ∈ vs, Told depth n v) (hws : ∀ w ∈ ws, IsData n w)
    (h : following depth vs ++ r = following depth ws ++ r') : AlikeAll vs ws ∧ r = r' := by
  induction vs generalizing ws with
  | nil =>
    cases ws with
    | nil => exact ⟨.nil, List.append_cancel_left h⟩
    | cons w ws => exact absurd (List.cons.inj h).1 (by decide)
  | cons v vs ih =>
    cases ws with
    | nil => exact absurd (List.cons.inj h).1 (by decide)
    | cons w ws =>
      rw [following_cons, following_cons, List.cons_append, List.cons_append, List.cons_append, List.cons_append,
        List.append_assoc, List.append_assoc] at h
      obtain ⟨hv, hrest⟩ := hvs v List.mem_cons_self w _ _ (hws w List.mem_cons_self) (following_stops depth vs r)
        (following_stops depth ws r') (List.cons.inj (List.cons.inj h).2).2
      obtain ⟨hall, hr⟩ := ih (fun u hu => hvs u (List.mem_cons_of_mem _ hu))
        (fun u hu => hws u (List.mem_cons_of_mem _ hu)) hrest
      exact ⟨.cons hv hall, hr⟩

theorem array_told (hdepth : depth + (n + 1) ≤ inspectDepth + 1) (hdata : ∀ v ∈ vs, IsData n v)
    (hvs : ∀ v ∈ vs, Told (depth + 1) n v) : Told depth (n + 1) (.array vs) := by
  intro w r r' hw _ _ h
  have hlead := lead_eq (.array hdata) hw hdepth h
  have hshown : depth ≤ inspectDepth := by omega
  cases hw with
  | word hw =>
    rw [hw.lead_eq] at hlead
    cases hlead
  | string s => cases hlead
  | @array _ ws hws =>
    cases vs with
    | nil =>
      cases ws with
      | nil => exact ⟨.array .nil, List.append_cancel_left h⟩
      | cons w ws =>
        obtain ⟨tail, hw, -⟩ := inspectAt_array hshown w ws
        rw [hw, inspectAt] at h
        exact absurd (List.cons.inj (List.cons.inj h).2).1 (by decide)
    | cons v vs =>
      obtain ⟨tail, hv, hfollowing⟩ := inspectAt_array hshown v vs
      cases ws with
      | nil =>
        rw [hv, inspectAt] at h
        exact absurd (List.cons.inj (List.cons.inj h).2).1 (by decide)
      | cons w ws =>
        obtain ⟨tail', hw, hfollowing'⟩ := inspectAt_array hshown w ws
        rw [hv, hw] at h
        have helements : following (depth + 1) (v :: vs) ++ r = following (depth + 1) (w :: ws) ++ r' := by
          rw [hfollowing, hfollowing']
          exact congrArg (',' :: ·) (List.cons.inj h).2
        obtain ⟨hall, hrest⟩ := following_told hvs hws helements
        exact ⟨.array hall, hrest⟩

/-- By the levels an array still has: its elements stand one level deeper and have one level less. -/
theorem IsData.told (h : IsData n v) : ∀ {depth : Nat}, depth + n ≤ inspectDepth + 1 → Told depth n v := by
  induction h with
  | word hv => exact fun hdepth => word_told hdepth hv
  | string s => exact fun hdepth => string_told hdepth s
  | array hdata ih => exact fun hdepth => array_told hdepth hdata fun u hu => ih u hu (by omega)

end

/-- Data nested three deep at most shows the same if and only if it is the same, but for the signs of zeros. -/
theorem inspect_eq_iff {v w : Value} (hv : IsData 3 v) (hw : IsData 3 w) : inspect v = inspect w ↔ Alike v w := by
  refine ⟨fun h => ?_, Alike.inspectAt_eq 0⟩
  have htold := @IsData.told _ _ hv 0 le_rfl w [] [] hw (fun c hc => by cases hc) (fun c hc => by cases hc)
  exact (htold (congrArg (String.toList · ++ []) h)).1

/-- A string that imitates the elements around it is quoted otherwise; zeros are shown without their sign. -/
theorem inspect_eq_iff_imitated :
    let imitated := Value.array [.string "a', 'b\n", .array [.array [.number (-0)], .array []]]
    let imitating := Value.array [.string "a', 'b\n", .array [.array [.number 0], .array []]]
    let elements := Value.array [.string "a", .string "b\n", .array [.array [.number 0], .array []]]
    inspect imitating = "[ \"a', 'b\\n\", [ [ 0 ], [] ] ]" ∧ Alike imitated imitating ∧ ¬ Alike elements imitating := by
  intro imitated imitating elements
  have hcons {n : Nat} {e : Value} {es : List Value} (he : IsData n e) (hes : ∀ e ∈ es, IsData n e) :
      ∀ e' ∈ e :: es, IsData n e' := List.forall_mem_cons.mpr ⟨he, hes⟩
  have hnil {n : Nat} : ∀ e ∈ [], IsData n e := List.forall_mem_nil _
  have hnested (x : Float) : IsData 2 (.array [.array [.number x], .array []]) :=
    .array (hcons (.array (hcons (.word (.number x)) hnil)) (hcons (.array hnil) hnil))
  have himitated : IsData 3 imitated := .array (hcons (.string _) (hcons (hnested _) hnil))
  have himitating : IsData 3 imitating := .array (hcons (.string _) (hcons (hnested _) hnil))
  have helements : IsData 3 elements := .array (hcons (.string _) (hcons (.string _) (hcons (hnested _) hnil)))
  refine ⟨rfl, (inspect_eq_iff himitated himitating).mp rfl, fun h => ?_⟩
  exact absurd ((inspect_eq_iff helements himitating).mpr h) (by decide)

example : inspect (.array [.array [.array [.array [.null]]]]) = inspect (.array [.array [.array [.array [.undefined]]]]) :=
  rfl

end Value

end Treewalk
