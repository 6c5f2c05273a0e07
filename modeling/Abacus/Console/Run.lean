import Abacus.Console.Dump
import Abacus.Console.Request
import Abacus.Report
import Abacus.Session
import Abacus.Settings.Json

/-!
# The command line

The command line runs one script, from an argument, a file or the standard input, and prints its
value, its tokens or its tree.  What it reads from files is given by a function, so that the whole
run is a function of what the host holds.

## Main definitions

* `Abacus.Host` — the standard input and the files that a run can read.
* `Abacus.Outcome` — what a run prints, and how it ends.
* `Abacus.Request.source` — the script of a request with its name.
* `Abacus.Request.answer` — the value, the tokens or the tree of a script.
* `Abacus.Console.run` — a whole run.
-/

namespace Abacus

/-- What a run can read: the standard input, and files by their path. -/
structure Host where
  stdin : String
  file? : String → Option String

/-- How a run ends: with a result, with a complaint about the script or the files, or with a
complaint about the arguments. -/
inductive Outcome where
  | success (text : String)
  | failure (complaint : String)
  | usage
deriving DecidableEq, Repr

namespace Outcome

/-- The exit code of a run. -/
def exitCode : Outcome → Nat
  | success _ => 0
  | failure _ => 1
  | usage => 2

/-- What a run prints on the standard output. -/
def stdout : Outcome → String
  | success text => text ++ "\n"
  | _ => ""

/-- What a run prints on the standard error about the script or the files.  A complaint ends its
line. -/
def stderr : Outcome → String
  | failure complaint => if complaint.endsWith "\n" then complaint else complaint ++ "\n"
  | _ => ""

end Outcome

namespace Request

/-- Why a file that is not there cannot be read. -/
def missing : String := "No such file or directory (os error 2)"

/-- The script of a request, with the name under which it is reported. -/
def source (r : Request) (host : Host) : Except String Report :=
  match r.file, r.script with
  | some path, _ =>
    match host.file? path with
    | some text => .ok ⟨path, text⟩
    | none => .error ("Failed to read the input file '" ++ path ++ "': " ++ missing ++ "\n")
  | none, some text => .ok ⟨"<input>", text⟩
  | none, none => .ok ⟨"<stdin>", host.stdin⟩

/-- Why settings are refused.  That is worded by the reader of JSON texts and is left out here; dots
stand for it. -/
def reason : String := "..."

/-- The settings of a request. -/
def settings (r : Request) (host : Host) : Except String Settings :=
  match r.config with
  | none => .ok .initial
  | some path =>
    match host.file? path with
    | none => .error ("could not read config file `" ++ path ++ "`: " ++ missing ++ "\n")
    | some text =>
      match Settings.parse? text with
      | some settings => .ok settings
      | none => .error ("invalid config: " ++ reason)

/-- What a request asks about a script: its tokens, its tree, or else its value. -/
def answer (r : Request) (patience : Nat) (settings : Settings) (script : String) :
    Except Halt String :=
  if r.tokens then
    match Token.tokenize script with
    | .ok tokens => .ok (Json.write .pretty (.array (tokens.map (·.toJson))))
    | .error e => .error (.failure (.lex e))
  else if r.tree then
    match Session.program settings.limits.nesting script with
    | .ok block => .ok (Json.write .pretty (Node.blockToJson block))
    | .error f => .error (.failure f)
  else
    match ((Session.ofSettings settings).run patience script).1 with
    | .ok value => .ok (Number.text value)
    | .error halt => .error halt

/-- The outcome of a request.  The script is read before the settings. -/
def outcome (r : Request) (patience : Nat) (host : Host) : Outcome :=
  match r.source host with
  | .error complaint => .failure complaint
  | .ok report =>
    match r.settings host with
    | .error complaint => .failure complaint
    | .ok settings =>
      match r.answer patience settings report.source with
      | .ok text => .success text
      | .error (.failure f) => .failure (report.render f)
      | .error .unfinished => .failure "the script did not finish\n"

end Request

namespace Console

/-- The name and version of the program. -/
def version : String := "tally 0.1.0"

/-- How the program is called. -/
def help : String :=
  "Usage: tally [-f PATH] [-c PATH] [--tokens] [--ast] [-V] [SCRIPT]"

/-- A run of the command line. -/
def run (patience : Nat) (arguments : List String) (host : Host) : Outcome :=
  match Request.read arguments with
  | .request r => r.outcome patience host
  | .version => .success version
  | .help => .success help
  | .mistake => .usage

end Console

end Abacus
