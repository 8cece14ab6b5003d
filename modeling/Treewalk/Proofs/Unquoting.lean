/-
  Treewalk.Proofs.Unquoting — strings as the console shows them are source text.

  The console puts a string between the first quote mark it lacks, and writes a backslash in front of
  what could not stand between two of these. The lexer knows two of the three marks.

  Proved: between these two the lexer reads the string back, whatever its characters
  (`lex_inspect_string`); they are the mark unless a string has both and lacks the third
  (`mark_eq_quote`).
-/

import Treewalk.Proofs.Escapes
import Treewalk.Proofs.Tiling
import Treewalk.Value.Inspect

namespace Treewalk

open Lexer (StringBody)

namespace Lexer

/-- A text for a character that a literal between the marks `q` may hold. -/
structure StandsFor (q : Char) (ds : List Char) (c : Char) : Prop where
  append {body : List Char} : StringBody q body → StringBody q (ds ++ body)
  denotes : Escape.Denotes true ds c

namespace StandsFor

variable {q c e : Char}

theorem plain (hquote : c ≠ q) (hslash : c ≠ '\\') (hn : c ≠ '\n') (hr : c ≠ '\r') : StandsFor q [c] c :=
  ⟨.plain hquote hslash hn hr, .plain hslash⟩

theorem control (he : (e, c) ∈ Escape.controls) : StandsFor q ['\\', e] c := by
  have hline : e ≠ '\n' ∧ e ≠ '\r' := by
    constructor <;> rintro rfl <;> simp [Escape.controls] at he
  exact ⟨.pair hline.1 hline.2, .control he⟩

/-- Behind a backslash these stand for themselves. -/
theorem itself (hc : c = '\\' ∨ c = '"' ∨ c = '\'') : StandsFor q ['\\', c] c := by
  rcases hc with rfl | rfl | rfl
  all_goals exact ⟨.pair (by decide) (by decide), .itself (by decide) (by decide) (by decide)⟩

/-- Texts of characters one behind the other are the body of a literal and read back. -/
theorem flatMap {write : Char → List Char} (hwrite : ∀ c, StandsFor q (write c) c) (cs : List Char) :
    StringBody q (cs.flatMap write) ∧ Escape.Reads true (cs.flatMap write) cs := by
  induction cs with
  | nil => exact ⟨.nil, .nil⟩
  | cons c cs ih =>
    obtain ⟨hcs, hreads⟩ := ih
    rw [List.flatMap_cons]
    exact ⟨(hwrite c).append hcs, .cons (hwrite c).denotes hreads⟩

end StandsFor

end Lexer

namespace Quoted

/-- The mark is one the lexer knows, unless the text has both of these and lacks the third. -/
theorem mark_eq_quote {cs : List Char} : mark cs = '\'' ∨ mark cs = '"' ↔ '\'' ∉ cs ∨ '"' ∉ cs ∨ '`' ∈ cs := by
  unfold mark
  split
  · simp_all
  · split
    · simp_all
    · split <;> simp_all

section
variable {q c : Char}

/-- How a character is written: as itself, if nothing speaks against it, or behind a backslash. -/
theorem escapeChar_cases (q c : Char) :
    (∃ e, escapeChar q c = ['\\', e] ∧ (e, c) ∈ Escape.controls) ∨
    (escapeChar q c = ['\\', c] ∧ (c = '\\' ∨ c = q)) ∨
    (escapeChar q c = [c] ∧ c ≠ q ∧ c ≠ '\\' ∧ c ≠ '\n' ∧ c ≠ '\r') := by
  unfold escapeChar
  split
  · exact .inl ⟨'n', rfl, by decide⟩
  · exact .inl ⟨'t', rfl, by decide⟩
  · exact .inl ⟨'r', rfl, by decide⟩
  · exact .inr (.inl ⟨rfl, .inl rfl⟩)
  · rename_i hn ht hr hslash
    split
    · rename_i hq
      exact .inr (.inl ⟨rfl, .inr hq⟩)
    · rename_i hq
      exact .inr (.inr ⟨rfl, hq, hslash, hn, hr⟩)

variable (hq : q = '"' ∨ q = '\'')
include hq

theorem standsFor_escapeChar (c : Char) : Lexer.StandsFor q (escapeChar q c) c := by
  obtain ⟨e, hesc, he⟩ | ⟨hesc, hc⟩ | ⟨hesc, hquote, hslash, hn, hr⟩ := escapeChar_cases q c
  all_goals rw [hesc]
  · exact .control he
  · refine .itself (hc.imp_right fun hself => ?_)
    rwa [hself]
  · exact .plain hquote hslash hn hr

/-- What is written between the marks is the body of a literal, and read back. -/
theorem encode_spec (cs : List Char) :
    StringBody q (cs.flatMap (escapeChar q)) ∧ Escape.Reads true (cs.flatMap (escapeChar q)) cs :=
  Lexer.StandsFor.flatMap (standsFor_escapeChar hq) cs

end

end Quoted

namespace Lexer

open Escape (byteLength)

/-- A text that is a literal is read as the string its body denotes. -/
theorem lex_string {q : Char} (hq : q = '"' ∨ q = '\'') {body text : List Char} (hb : StringBody q body)
    (hreads : Escape.Reads true body text) :
    lex (String.ofList (q :: (body ++ [q]))) =
      .ok (oneToken (.string (String.ofList text)) (byteLength (q :: (body ++ [q])))) := by
  have hlongest : Longest .string (q :: (body ++ [q])).length (q :: (body ++ [q])) := by
    simpa using longest_string hq hb []
  have hbody : ((q :: (body ++ [q])).drop 1).dropLast = body := by simp
  refine hlongest.lex_eq ?_
  simp only [kind, hbody, Escape.decode, hreads.decodeFrom_eq]

end Lexer

/-- A string between quote marks of the lexer, that is one that lacks one of these or has all three marks,
    is read back. -/
theorem lex_inspect_string (s : String) :
    (Quoted.mark s.toList = '\'' ∨ Quoted.mark s.toList = '"' ↔ '\'' ∉ s.toList ∨ '"' ∉ s.toList ∨ '`' ∈ s.toList) ∧
      (Quoted.mark s.toList = '\'' ∨ Quoted.mark s.toList = '"' →
        lex (Value.inspect (.string s)) =
          .ok (Lexer.oneToken (.string s) (Value.inspect (.string s)).utf8ByteSize)) := by
  refine ⟨Quoted.mark_eq_quote, fun h => ?_⟩
  obtain ⟨hbody, hreads⟩ := Quoted.encode_spec h.symm s.toList
  have htext : Value.inspect (.string s) = String.ofList (Quoted.encode s.toList) := by
    rw [Value.inspect, Value.inspectAt, quoted]
  have hread := Lexer.lex_string h.symm hbody hreads
  rw [String.ofList_toList] at hread
  rw [htext, ← Lexer.byteLength_toList, String.toList_ofList]
  exact hread

/-- All three marks, a backslash in front of one of them, control characters and others. -/
theorem lex_inspect_string_marks :
    let s := "it's \"x\\`\n\r\t\x00é😀\\u"
    Quoted.mark s.toList = '\'' ∧ Value.inspect (.string s) = "'it\\'s \"x\\\\`\\n\\r\\t\x00é😀\\\\u'" ∧
      lex (Value.inspect (.string s)) = .ok [⟨.string s, ⟨0, 29⟩⟩, ⟨.eof, .point 29⟩] := by
  intro s
  have hmark : Quoted.mark s.toList = '\'' := by decide +kernel
  have htext : Value.inspect (.string s) = "'it\\'s \"x\\\\`\\n\\r\\t\x00é😀\\\\u'" := by decide +kernel
  have hsize : (Value.inspect (.string s)).utf8ByteSize = 29 := by
    rw [htext]
    decide +kernel
  have hread := (lex_inspect_string s).2 (.inl hmark)
  rw [hsize, Lexer.oneToken_of_le (by decide)] at hread
  exact ⟨hmark, htext, hread⟩

end Treewalk
