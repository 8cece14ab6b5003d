/-
  Treewalk.Main — the program: reads the file its command names, and prints.
-/

import Treewalk.CommandLine

namespace Treewalk

/-- The contents of a file. -/
def readSource (path : String) : IO (Except ReadError String) := do
  try
    return sourceText (← IO.FS.readBinFile path)
  catch e =>
    match e with
    | .noFileOrDirectory _ _ _ => return .error .notFound
    | .permissionDenied _ _ _ => return .error .permissionDenied
    -- Opening fails on the path, reading on what it leads to.
    | .inappropriateType (some _) _ _ => return .error .notDirectory
    | .inappropriateType none _ _ => return .error .isDirectory
    | .invalidArgument (some _) _ "name too long" => return .error .nameTooLong
    | e => return .error (.system (toString e))

end Treewalk

open Treewalk in
def main (args : List String) : IO UInt32 := do
  let command := Command.ofArgs args
  let contents ← match command.file? with
    | some path => readSource path
    | none => pure (.error .notFound)
  let stdout ← IO.getStdout
  let stderr ← IO.getStderr
  let response := command.respond ⟨← stdout.isTty, ← stderr.isTty⟩ contents
  stdout.putStr response.out
  stderr.putStr response.err
  return response.exit.toUInt32
