import Abacus.Evaluation
import Abacus.Node.Parser
import Abacus.Token.Scan

/-!
# Sessions

A session runs one script after the other in one environment: what a script binds, the next one
finds bound.  A script that cannot be read changes nothing, and what a script binds before it
fails stays bound.

## Main definitions

* `Abacus.Halt` — why a script gives no value.
* `Abacus.Session` — an environment that outlives the scripts.
* `Abacus.Session.program` — the program of a script.
* `Abacus.Session.run` — runs a script.
-/

namespace Abacus

/-- Why a script gives no value: it fails, or it does not end while the host waits. -/
inductive Halt where
  | failure (f : Failure)
  | unfinished
deriving DecidableEq, Repr

/-- Why a script gives no value, from why its evaluation ended early. -/
def Halt.ofStop : Stop → Halt
  | .failure e => failure (.runtime e)
  | .tooDeep => unfinished
  | .tooLong => unfinished

/-- An environment in which scripts are run. -/
structure Session where
  environment : Environment

namespace Session

/-- The patience of a host that waits for a script as long as it takes: more rounds than a machine
can run. -/
def longPatience : Nat := Nat.pow 2 60

/-- The session of a host with these settings. -/
def ofSettings (settings : Settings) : Session := ⟨.ofSettings settings⟩

/-- The program of a script, nested at most `limit` levels deep. -/
def program (limit : Nat) (source : String) : Except Failure Block :=
  match Token.tokenize source with
  | .error e => .error (.lex e)
  | .ok tokens =>
    match Node.parse limit tokens with
    | .error e => .error (.parse e)
    | .ok block => .ok block

/-- Runs a program in the session's environment. -/
def runBlock (patience : Nat) (s : Session) (block : Block) : Except Halt Float × Session :=
  match Node.runBlock patience block s.environment with
  | .ok value env => (.ok value, ⟨env⟩)
  | .error stop env => (.error (.ofStop stop), ⟨env⟩)

/-- Runs a script.  Nothing is evaluated unless all of it can be read. -/
def run (patience : Nat) (s : Session) (source : String) : Except Halt Float × Session :=
  match program s.environment.limits.nesting source with
  | .error f => (.error (.failure f), s)
  | .ok block => s.runBlock patience block

end Session

end Abacus
