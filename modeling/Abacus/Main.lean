import Abacus.Console.Run

/-!
# The program

Reads the arguments, the standard input and the files that the arguments name, and prints the
outcome. -/

namespace Abacus

namespace Console

/-- The contents of a file, if it can be read. -/
def readFile? (path : String) : IO (Option String) :=
  try
    return some (← IO.FS.readFile path)
  catch _ => return none

/-- The files that a request names, with their contents. -/
def readFiles (r : Request) : IO (List (String × Option String)) :=
  (r.file.toList ++ r.config.toList).mapM fun path => return (path, ← readFile? path)

/-- The standard input, if a request reads it. -/
def readInput (r : Request) : IO String := do
  if r.file.isNone && r.script.isNone then (← IO.getStdin).readToEnd else return ""

/-- What a request can read. -/
def hostOf (r : Request) : IO Host := do
  let files ← readFiles r
  let input ← readInput r
  return ⟨input, fun path => (files.lookup path).join⟩

end Console

end Abacus

open Abacus in
/-- Runs the command line. -/
def main (arguments : List String) : IO UInt32 := do
  let host ← match Request.read arguments with
    | .request r => Console.hostOf r
    | _ => pure ⟨"", fun _ => none⟩
  let outcome := Console.run Session.longPatience arguments host
  IO.print outcome.stdout
  IO.eprint outcome.stderr
  if outcome matches .usage then IO.eprintln Console.help
  return outcome.exitCode.toUInt32
