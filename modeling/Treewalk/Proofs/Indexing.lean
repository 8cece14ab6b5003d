/-
  Treewalk.Proofs.Indexing — what arrays and strings answer to keys.

  A key counts by its text. Strings are sequences too: the code unit at a place in UTF-16 selects the
  character it stands for, or the replacement character if it is half of a surrogate pair (`Indexed`).

  Proved: of sequences shorter than `2 ^ 53`, `length` gives the length, the numeral of a place what is at
  that place, and any other key nothing; a number selects a place if and only if it is equal to it
  (`property_indexed`).
-/

import Treewalk.Eval.Operator
import Treewalk.Proofs.WholeNumbers

namespace Treewalk

namespace Text

/-! ## Code units -/

/-- A character in UTF-16. -/
def utf16 (c : Char) : List Nat :=
  if c.toNat < 0x10000 then [c.toNat]
  else [0xd800 + (c.toNat - 0x10000) / 0x400, 0xdc00 + (c.toNat - 0x10000) % 0x400]

/-- What a code unit stands for by itself. -/
def ofUnit (u : Nat) : Char := if 0xd800 ≤ u ∧ u < 0xe000 then '\uFFFD' else Char.ofNat u

theorem charUnits_eq (c : Char) : charUnits c = (utf16 c).map ofUnit := by
  have hvalid : c.toNat < 0xd800 ∨ 0xdfff < c.toNat ∧ c.toNat < 0x110000 := c.valid
  unfold charUnits utf16
  split
  next =>
    have hunit : ofUnit c.toNat = c := by
      rw [ofUnit, if_neg (by omega), Char.ofNat_toNat]
    rw [List.map_singleton, hunit]
  next hlarge =>
    have hhigh : ofUnit (0xd800 + (c.toNat - 0x10000) / 0x400) = replacement := if_pos (by omega)
    have hlow : ofUnit (0xdc00 + (c.toNat - 0x10000) % 0x400) = replacement := if_pos (by omega)
    rw [List.map_cons, List.map_singleton, hhigh, hlow]

theorem units_eq (s : String) : units s = (s.toList.flatMap utf16).map ofUnit := by
  rw [units, List.map_flatMap]
  exact congrArg s.toList.flatMap (funext charUnits_eq)

end Text

namespace Value

open Decimal

/-! ## Keys -/

theorem index?_eq_some {key : String} {i : Nat} : index? key = some i ↔ i ≤ maxIndex ∧ key = i.repr := by
  constructor
  · intro h
    unfold index? at h
    split at h
    next j _ =>
      split at h
      next hj =>
        obtain rfl := Option.some.inj h
        refine ⟨hj.1, String.toList_inj.mp ?_⟩
        rw [← hj.2, Nat.toList_repr]
        rfl
      next => cases h
    next => cases h
  · rintro ⟨hi, rfl⟩
    have hwhole : wholeNat? (digitChars i) = some i :=
      wholeNat?_eq_some.mpr ⟨digitChars_ne_nil i, fun _ => isDigit_of_mem_digitChars, natOf_digitChars i⟩
    have htext : i.repr.toList = digitChars i := Nat.toList_repr
    simp only [index?, htext, hwhole, hi, and_self, if_true]

theorem length_ne_repr (i : Nat) : "length" ≠ i.repr := by
  intro h
  have hmem : 'l' ∈ digitChars i := by
    have htext : i.repr.toList = digitChars i := Nat.toList_repr
    rw [← htext, ← h]
    decide
  exact absurd (isDigit_of_mem_digitChars hmem) (by decide)

theorem length_ne_numberText (x : Float) : numberText x ≠ "length" := by
  intro h
  have hmem : 'l' ∈ (numberText x).toList := by
    rw [h]
    decide
  exact absurd (numberText_chars hmem) (by decide)

/-! ## Sequences -/

/-- Values that have places, and what is at each. -/
inductive Indexed : Value → List Value → Prop
  | array (es : List Value) : Indexed (.array es) es
  | string (s : String) : Indexed (.string s)
      ((s.toList.flatMap Text.utf16).map fun u => .string (String.singleton (Text.ofUnit u)))

section
variable {v : Value} {items : List Value} {key : String}

theorem Indexed.property_eq (h : Indexed v items) (key : String) : v.property key =
    .ok (if key = "length" then .number (ofNat items.length) else ((index? key).bind (items[·]?)).getD .undefined) := by
  cases h with
  | array es =>
    rw [property]
    split <;> rfl
  | string s =>
    have hitem : ((index? key).bind ((Text.units s)[·]?)).map (fun c => Value.string (String.singleton c)) =
        (index? key).bind (((s.toList.flatMap Text.utf16).map
          fun u => Value.string (String.singleton (Text.ofUnit u)))[·]?) := by
      cases index? key with
      | none => rfl
      | some i => simp [Text.units_eq, List.getElem?_map, Function.comp_def]
    rw [property]
    split
    next => rw [Text.units_eq, List.length_map, List.length_map]
    next => rw [hitem]

/-- The answer to a key. -/
inductive Answers (items : List Value) : String → Value → Prop
  | length {x : Float} : toRat? x = some (items.length : ℚ) → Answers items "length" (.number x)
  | item {i : Nat} (hi : i < items.length) : Answers items i.repr items[i]
  | other {key : String} : key ≠ "length" → (∀ i < items.length, key ≠ i.repr) → Answers items key .undefined

theorem Indexed.property_item (h : Indexed v items) (hlen : items.length < 2 ^ 53) {i : Nat} (hi : i < items.length) :
    v.property i.repr = .ok items[i] := by
  have hindex : index? i.repr = some i := by
    refine index?_eq_some.mpr ⟨?_, rfl⟩
    have hmax : maxIndex = 2 ^ 64 - 1 := rfl
    omega
  rw [h.property_eq, if_neg (Ne.symm (length_ne_repr i)), hindex, Option.bind_some, List.getElem?_eq_getElem hi]
  rfl

theorem Indexed.property_other (h : Indexed v items) (hlength : key ≠ "length") (hitem : ∀ i < items.length, key ≠ i.repr) :
    v.property key = .ok .undefined := by
  rw [h.property_eq, if_neg hlength]
  cases hindex : index? key with
  | none => rfl
  | some i =>
    obtain ⟨-, rfl⟩ := index?_eq_some.mp hindex
    rw [Option.bind_some, List.getElem?_eq_none (not_lt.mp fun hi => hitem i hi rfl)]
    rfl

theorem Indexed.answers (h : Indexed v items) (hlen : items.length < 2 ^ 53) (key : String) :
    ∃ answer, v.property key = .ok answer ∧ Answers items key answer := by
  by_cases hlength : key = "length"
  · subst hlength
    exact ⟨_, h.property_eq _, .length (toRat?_ofNat hlen)⟩
  · by_cases hitem : ∃ i, i < items.length ∧ key = i.repr
    · obtain ⟨i, hi, rfl⟩ := hitem
      exact ⟨_, h.property_item hlen hi, .item hi⟩
    · push Not at hitem
      exact ⟨_, h.property_other hlength hitem, .other hlength hitem⟩

/-- Of arrays and strings the key `length` gives the length, the numeral of a place what is there, and other keys
    give nothing. A number selects a place if and only if it is equal to it, and nothing if it is equal to none. -/
theorem property_indexed (h : Indexed v items) (hlen : items.length < 2 ^ 53) :
    (∀ key : Value, ∃ answer, v.property key.text = .ok answer ∧ Answers items key.text answer) ∧
    ∀ x : Float,
      (∀ i, ∀ hi : i < items.length, ((Value.number x).text = i.repr ↔ toRat? x = some (i : ℚ)) ∧
        (toRat? x = some (i : ℚ) → v.property (Value.number x).text = .ok items[i])) ∧
      ((∀ i < items.length, toRat? x ≠ some (i : ℚ)) → v.property (Value.number x).text = .ok .undefined) := by
  have hselects {x : Float} {i : Nat} (hi : i < items.length) : (Value.number x).text = i.repr ↔ toRat? x = some (i : ℚ) :=
    numberText_eq_repr (hi.trans hlen)
  refine ⟨fun key => h.answers hlen key.text, fun x => ⟨fun i hi => ⟨hselects hi, fun hx => ?_⟩, fun hx => ?_⟩⟩
  · rw [(hselects hi).mpr hx]
    exact h.property_item hlen hi
  · exact h.property_other (length_ne_numberText x) fun i hi hkey => hx i hi ((hselects hi).mp hkey)

end

/-- A character with two code units, and negative zero as a key. -/
theorem property_indexed_halves :
    let v : Value := .string "a😀"
    let items : List Value := [.string "a", .string "\uFFFD", .string "\uFFFD"]
    Indexed v items ∧ items.length < 2 ^ 53 ∧ v.property (Value.number (-0)).text = .ok (.string "a") ∧
      ∃ answer, v.property (Value.array [.string "2"]).text = .ok answer ∧
        Answers items (Value.array [.string "2"]).text answer := by
  intro v items
  have h : Indexed v items := .string "a😀"
  have hlen : items.length < 2 ^ 53 := by decide
  obtain ⟨hkeys, hnumbers⟩ := property_indexed h hlen
  exact ⟨h, hlen, ((hnumbers (-0)).1 0 (by decide)).2 (toRat?_zero true), hkeys _⟩

end Value

end Treewalk
