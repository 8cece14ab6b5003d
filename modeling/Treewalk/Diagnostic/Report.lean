/-
  Treewalk.Diagnostic.Report — a diagnostic drawn against its source.

  A report is a header, then either the notes or an excerpt: the line of one label, the label's
  columns underlined and its text under the line, then the last note. The excerpt is that of the
  first primary label, or of the first label when none is primary.
-/

import Treewalk.Diagnostic
import Treewalk.Text.Blank
import Treewalk.Token.Escape

namespace Treewalk

/-- When output is colored. -/
inductive ColorMode where
  | auto
  | always
  | never
  deriving DecidableEq, Repr

namespace ColorMode

def text : ColorMode → String
  | .auto => "auto"
  | .always => "always"
  | .never => "never"

def ofText? : String → Option ColorMode
  | "auto" => some .auto
  | "always" => some .always
  | "never" => some .never
  | _ => none

/-- Only `auto` asks whether the output is a terminal. -/
def usesColors (m : ColorMode) (terminal : Bool) : Bool :=
  match m with
  | .auto => terminal
  | .always => true
  | .never => false

end ColorMode

/-- A source text and the name it is reported under. -/
structure Source where
  name : String
  text : String
  deriving DecidableEq, Repr

namespace Source

open Escape (byteLength)

/-- A span cut down to the text. -/
def clamp (s : Source) (span : Span) : Span :=
  let size := s.text.utf8ByteSize
  let start := min span.start size
  ⟨start, max start (min span.stop size)⟩

/-- The lines of a text, each with its line break. -/
def linesOf : List Char → List (List Char)
  | [] => []
  | c :: cs =>
    if c = '\n' then [c] :: linesOf cs
    else
      match linesOf cs with
      | [] => [[c]]
      | l :: ls => (c :: l) :: ls

/-- How many characters start before a byte offset. -/
def columnOf : Nat → List Char → Nat
  | 0, _ => 0
  | _, [] => 0
  | offset, c :: cs => 1 + columnOf (offset - c.utf8Size) cs

/-- The line a byte offset is in: its number from `number` on, its text and where it starts. The
    end of the text is in the last line. -/
def lineAt (number start offset : Nat) : List (List Char) → Nat × List Char × Nat
  | [] => (number, [], start)
  | [l] => (number, l, start)
  | l :: ls => if offset < start + byteLength l then (number, l, start) else lineAt (number + 1) (start + byteLength l) offset ls

/-- The line number and column of a byte offset, both from one. -/
def place (s : Source) (offset : Nat) : Nat × Nat :=
  let (number, line, start) := lineAt 1 0 offset (linesOf s.text.toList)
  (number, columnOf (offset - start) line + 1)

end Source

namespace Diagnostic

/-- The word for a severity in a header. -/
def kindWord : Severity → String
  | .error => "Error"
  | .warning => "Warning"
  | .note | .help => "Advice"

def kindColor : Severity → String
  | .error => "\x1b[31m"
  | .warning => "\x1b[33m"
  | .note | .help => "\x1b[38;5;147m"

def header (d : Diagnostic) (colors : Bool) : String :=
  let kind := "[" ++ d.code.text ++ "] " ++ kindWord d.severity ++ ":"
  (if colors then kindColor d.severity ++ kind ++ "\x1b[0m" else kind) ++ " " ++ d.message ++ "\n"

/-- The label an excerpt shows. -/
def shownLabel? (d : Diagnostic) : Option Label := (d.labels.find? (·.isPrimary)).or d.labels.head?

/-- The line below the excerpt: columns `a` to `b` underlined, a tick at `m`. -/
def underline (a b m : Nat) : List Char :=
  (List.range (b + 2)).map fun i =>
    if i = m then (if a < b then '┬' else '│') else if a ≤ i ∧ i < b then '─' else ' '

/-- The arm from the tick at `m` to the label's text. -/
def arm (b m : Nat) : List Char :=
  (List.range (b + 2)).map fun i => if i < m then ' ' else if i = m then '╰' else '─'

/-- The excerpt for a label. -/
def excerpt (d : Diagnostic) (label : Label) (source : Source) : String :=
  let span := source.clamp label.span
  let (number, line, start) := Source.lineAt 1 0 span.start (Source.linesOf source.text.toList)
  let a := Source.columnOf (span.start - start) line
  let b := Source.columnOf (span.stop - start) line
  let m := (a + b) / 2
  let (row, column) := source.place ((d.primarySpan?.map fun s => (source.clamp s).start).getD 0)
  let width := (Nat.toDigits 10 number).length + 2
  let margin := String.ofList (List.replicate width ' ')
  let shown := String.ofList (line.reverse.dropWhile Text.isBlank).reverse
  let note := match d.notes.getLast? with
    | some n => margin ++ "│ \n" ++ margin ++ "│ Note: " ++ n ++ "\n"
    | none => ""
  margin ++ s!"╭─[{source.name}:{row}:{column}]\n" ++
  margin ++ "│\n" ++
  s!" {number} │ {shown}\n" ++
  margin ++ "│ " ++ String.ofList (underline a b m) ++ "\n" ++
  margin ++ "│ " ++ String.ofList (arm b m) ++ " " ++ label.text ++ "\n" ++
  note ++
  String.ofList (List.replicate width '─') ++ "╯\n"

def noteLines (d : Diagnostic) : String := String.join (d.notes.map fun n => "Note: " ++ n ++ "\n")

/-- The report of a diagnostic. Over an empty source a labelled one is only a header. -/
def report (d : Diagnostic) (source : Source) (colors : Bool) : String :=
  d.header colors ++
  match d.shownLabel? with
  | none => d.noteLines
  | some label => if source.text.isEmpty then "" else d.excerpt label source

/-- The reports of diagnostics, one after the other. -/
def reportAll (ds : List Diagnostic) (source : Source) (colors : Bool) : String :=
  String.join (ds.map (·.report source colors))

end Diagnostic

end Treewalk
