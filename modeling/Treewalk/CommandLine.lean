/-
  Treewalk.CommandLine — the commands, and what each prints.

  A command names at most one file. Reading it is left to the caller, which hands the contents to
  `Command.respond`.
-/

import Treewalk.Run
import Treewalk.Node.Outline
import Treewalk.CommandLine.Options

namespace Treewalk

/-- What a program prints and how it exits. -/
structure Response where
  exit : Nat
  out : String
  err : String
  deriving DecidableEq, Repr

/-- Why a file has no text. -/
inductive ReadError where
  | notFound
  | permissionDenied
  | invalidText
  | isDirectory
  /-- A file stands where the path needs a directory. -/
  | notDirectory
  | nameTooLong
  /-- Anything else, in the system's words. -/
  | system (message : String)
  deriving DecidableEq, Repr

def ReadError.message (path : String) : ReadError → String
  | .notFound => "cannot find file '" ++ path ++ "'"
  | .permissionDenied => "permission denied reading '" ++ path ++ "'"
  | .invalidText => "'" ++ path ++ "' contains invalid UTF-8 data"
  | .isDirectory => "cannot read '" ++ path ++ "': Is a directory (os error 21)"
  | .notDirectory => "cannot read '" ++ path ++ "': Not a directory (os error 20)"
  | .nameTooLong => "cannot read '" ++ path ++ "': File name too long (os error 36)"
  | .system m => "cannot read '" ++ path ++ "': " ++ m

/-- The text of a file's bytes. -/
def sourceText (bytes : ByteArray) : Except ReadError String :=
  match String.fromUTF8? bytes with
  | some s => .ok s
  | none => .error .invalidText

/-- Which outputs are terminals. -/
structure Terminals where
  out : Bool
  err : Bool
  deriving DecidableEq, Repr

inductive Command where
  | help
  | version
  | run (path : String) (options : RunOptions)
  | eval (source : String) (options : RunOptions)
  | parse (path : String)
  | lex (path : String)
  | explain (code : String)
  /-- Something is missing; the text says how the command is used. -/
  | incomplete (usage : String)
  | badOption (e : OptionError)
  | unknown (word : String)
  deriving Repr

namespace Command

/-- The last part of a path that names something. -/
def fileName? (path : String) : Option (List Char) :=
  let parts := (path.toList.splitOn '/').filter fun p => p ≠ [] ∧ p ≠ ['.']
  match parts.getLast? with
  | some ['.', '.'] => none
  | p => p

/-- What follows the last point of a file name that has something before it. -/
def extension? (path : String) : Option (List Char) :=
  (fileName? path).bind fun name =>
    let ending := name.reverse.takeWhile (· ≠ '.')
    if ending.length + 1 < name.length then some ending.reverse else none

def isScript (path : String) : Bool := (extension? path).any fun e => e.map Char.toLower == ['j', 's']

/-- A command that needs one more argument. -/
def withArgument (make : String → Command) (usage : String) : List String → Command
  | a :: _ => make a
  | [] => .incomplete usage

/-- A command that runs its input. -/
def withOptions (make : String → RunOptions → Command) (usage : String) (args : List String) : Command :=
  match RunOptions.read args with
  | .error e => .badOption e
  | .ok o =>
    match o.input with
    | some input => make input o
    | none => .incomplete usage

/-- A word that is no command may be a script to run. -/
def ofPath (word : String) (args : List String) : Command :=
  if isScript word then
    match RunOptions.read (word :: args) with
    | .error e => .badOption e
    | .ok o => .run word o
  else .unknown word

def ofArgs : List String → Command
  | [] => .help
  | word :: args =>
    match word with
    | "run" => withOptions .run "Usage: arbor run <file.js> [options]\n" args
    | "eval" => withOptions .eval "Usage: arbor eval '<source>' [options]\n" args
    | "parse" => withArgument .parse "Usage: arbor parse <file.js>\n" args
    | "lex" => withArgument .lex "Usage: arbor lex <file.js>\n" args
    | "explain" | "--explain" =>
      withArgument .explain "Usage: arbor explain <ERROR_CODE>\nExample: arbor explain E6001\n" args
    | "help" | "--help" | "-h" => .help
    | "version" | "--version" | "-V" => .version
    | word => ofPath word args

/-- The file a command reads. -/
def file? : Command → Option String
  | .run path _ => some path
  | .parse path => some path
  | .lex path => some path
  | _ => none

def usage : String := "\n".intercalate [
  "Arbor (tree-walking JavaScript subset interpreter)",
  "",
  "Usage: arbor <command> [options]",
  "",
  "Commands:",
  "  run <file.js>        Evaluate a program",
  "  eval '<source>'      Evaluate source given on the command line",
  "  parse <file.js>      Print the syntax tree",
  "  lex <file.js>        Print the token stream",
  "  explain <code>       Describe an error code (e.g., E6001)",
  "  help                 Show this help message",
  "  version              Show version information",
  "",
  "Run options:",
  "  --color=<mode>             auto (default), always, never",
  "  --max-call-depth=<n>       Nested call limit (default: 10000)",
  "  --truthy-redeclaration     Only reject redeclaring truthy bindings",
  "",
  "Logging:",
  "  RUST_LOG=arbor_eval=debug arbor run main.js",
  "",
  "Examples:",
  "  arbor run main.js",
  "  arbor eval 'console.log(1 + 2)'",
  "  arbor parse main.js",
  "  arbor explain E6003",
  ""]

def failed (err : String) : Response := ⟨1, "", err⟩

/-- Runs a source text. -/
def runSource (source : Source) (options : RunOptions) (ttys : Terminals) : Response :=
  let o := Treewalk.run { options.eval with color := options.color.usesColors ttys.out } source.text
  ⟨if o.isCompleted then 0 else 1, o.out, o.err ++ o.report source (options.color.usesColors ttys.err)⟩

/-- The report on a source that only was to be shown. -/
def reported (d : Diagnostic) (source : Source) (ttys : Terminals) : Response :=
  failed (d.report source (ColorMode.auto.usesColors ttys.err))

def parseSource (source : Source) (ttys : Terminals) : Response :=
  match Treewalk.parse source.text with
  | .ok tree => ⟨0, tree.outline, ""⟩
  | .error e => reported e.diagnostic source ttys

def tokenLine (t : Token) : String := "  " ++ t.kind.listing ++ " @ " ++ t.span.text ++ "\n"

def lexSource (source : Source) (ttys : Terminals) : Response :=
  match Treewalk.lex source.text with
  | .ok ts =>
    ⟨0, s!"Tokens for '{source.name}' ({ts.length} tokens):\n" ++ String.join (ts.map tokenLine), ""⟩
  | .error e => reported e.diagnostic source ttys

def explainCode (text : String) : Response :=
  match Code.ofText? text with
  | some c =>
    let phase := if c.isOfSource then "syntax" else "evaluation"
    ⟨0, c.text ++ ": " ++ c.description ++ " (" ++ phase ++ " error)\n", ""⟩
  | none =>
    failed ("Unknown error code: " ++ text ++ "\n\nCodes have the format EXXXX where X is a digit.\n" ++
      "Examples: E0001, E1001, E6001\n")

/-- Works on the text of a file, if it has one. -/
def onFile (path : String) (contents : Except ReadError String) (work : Source → Response) : Response :=
  match contents with
  | .ok text => work ⟨path, text⟩
  | .error e => failed ("error: " ++ e.message path ++ "\n")

/-- What a command prints, given what reading its file gave. -/
def respond (ttys : Terminals) (contents : Except ReadError String) : Command → Response
  | .help => ⟨0, usage, ""⟩
  | .version => ⟨0, "Arbor 0.1.0-alpha.1\n", ""⟩
  | .run path options => onFile path contents fun s => runSource s options ttys
  | .eval source options => runSource ⟨"<eval>", source⟩ options ttys
  | .parse path => onFile path contents fun s => parseSource s ttys
  | .lex path => onFile path contents fun s => lexSource s ttys
  | .explain code => explainCode code
  | .incomplete text => failed text
  | .badOption e => failed ("error: " ++ e.message ++ "\n")
  | .unknown word => ⟨1, usage, "Unknown command: " ++ word ++ "\n\n"⟩

end Command

end Treewalk
