/-!
# Command-line arguments

The arguments of the command line are read from left to right.  Options come in a long form, with
the value after an equals sign or as the next argument, and in a short form of one letter, with
the value right after the letter, after an equals sign or as the next argument.  Two dashes end
the options. The first mistake ends the reading, and so does a question about the program.

## Main definitions

* `Abacus.Request` — what the arguments ask for.
* `Abacus.Request.Switch` — the options.
* `Abacus.Request.Shape` — what an argument looks like.
* `Abacus.Request.step`, `Abacus.Request.read` — reads one argument, and all of them.
-/

namespace Abacus

/-- What the arguments ask for: where the script and the settings are, and whether to show the
tokens or the tree of the script instead of running it. -/
structure Request where
  file : Option String
  config : Option String
  tokens : Bool
  tree : Bool
  script : Option String
deriving DecidableEq, Repr

namespace Request

/-! ## Options -/

/-- An option with a path as its value. -/
inductive Setting where
  | file
  | config
deriving DecidableEq, Repr

/-- An option without a value. -/
inductive Flag where
  | tokens
  | tree
  | version
  | help
deriving DecidableEq, Repr

/-- An option. -/
inductive Switch where
  | setting (s : Setting)
  | flag (f : Flag)
deriving DecidableEq, Repr

/-- The option with a given long name. -/
def Switch.ofLong? : String → Option Switch
  | "file" => some (setting .file)
  | "config" => some (setting .config)
  | "tokens" => some (flag .tokens)
  | "ast" => some (flag .tree)
  | "version" => some (flag .version)
  | "help" => some (flag .help)
  | _ => none

/-- The option with a given letter. -/
def Switch.ofLetter? : Char → Option Switch
  | 'f' => some (setting .file)
  | 'c' => some (setting .config)
  | 'V' => some (flag .version)
  | 'h' => some (flag .help)
  | _ => none

/-- What an argument looks like: two dashes, a long name with the value after an equals sign, a
letter with what follows it, or a plain text. -/
inductive Shape where
  | endOfOptions
  | long (name : String) (value : Option String)
  | short (letter : Char) (attached : List Char)
  | plain
deriving DecidableEq, Repr

/-- What an argument looks like.  A single dash is a plain text. -/
def Shape.of (argument : String) : Shape :=
  match argument.toList with
  | ['-', '-'] => endOfOptions
  | '-' :: '-' :: cs =>
    let name := String.ofList (cs.takeWhile (· ≠ '='))
    match cs.dropWhile (· ≠ '=') with
    | _ :: value => long name (some (String.ofList value))
    | [] => long name none
  | '-' :: letter :: attached => short letter attached
  | _ => plain

/-- The value that follows a letter, if any.  An equals sign before it is not part of it. -/
def attachedValue? : List Char → Option String
  | [] => none
  | '=' :: value => some (String.ofList value)
  | value => some (String.ofList value)

/-! ## Reading -/

/-- What comes of reading arguments: a request, a question about the program, or a mistake. -/
inductive Reading where
  | request (r : Request)
  | version
  | help
  | mistake
deriving DecidableEq, Repr

/-- What the next argument may be: anything, the value of an option, or a plain text only. -/
inductive Mode where
  | options
  | value (s : Setting)
  | plain
deriving DecidableEq, Repr

/-- Takes note of an option's value.  It cannot be given twice, and a path cannot be empty. -/
def set (r : Request) (s : Setting) (path : String) : Except Reading Request :=
  if path.isEmpty then .error .mistake
  else match s with
    | .file => if r.file.isSome then .error .mistake else .ok { r with file := some path }
    | .config => if r.config.isSome then .error .mistake else .ok { r with config := some path }

/-- Takes note of an option without a value.  It cannot be given twice. -/
def raise (r : Request) : Flag → Except Reading Request
  | .tokens => if r.tokens then .error .mistake else .ok { r with tokens := true }
  | .tree => if r.tree then .error .mistake else .ok { r with tree := true }
  | .version => .error .version
  | .help => .error .help

/-- Takes note of a script.  There can be only one. -/
def setScript (r : Request) (text : String) : Except Reading Request :=
  if r.script.isSome then .error .mistake else .ok { r with script := some text }

/-- Takes note of an option by its long name. -/
def takeLong (r : Request) (name : String) (value : Option String) :
    Except Reading (Mode × Request) :=
  match Switch.ofLong? name, value with
  | some (.setting s), some path => return (.options, ← r.set s path)
  | some (.setting s), none => return (.value s, r)
  | some (.flag f), none => return (.options, ← r.raise f)
  | _, _ => .error .mistake

/-- Takes note of an option by its letter. -/
def takeShort (r : Request) (letter : Char) (attached : List Char) :
    Except Reading (Mode × Request) :=
  match Switch.ofLetter? letter, attachedValue? attached with
  | some (.setting s), some path => return (.options, ← r.set s path)
  | some (.setting s), none => return (.value s, r)
  | some (.flag f), _ => return (.options, ← r.raise f)
  | none, _ => .error .mistake

/-- Reads one argument. -/
def step (state : Mode × Request) (argument : String) : Except Reading (Mode × Request) :=
  let (mode, r) := state
  match mode, Shape.of argument with
  | .plain, _ => return (.plain, ← r.setScript argument)
  | .value s, .plain => return (.options, ← r.set s argument)
  | .value _, _ => .error .mistake
  | .options, .plain => return (.options, ← r.setScript argument)
  | .options, .endOfOptions => return (.plain, r)
  | .options, .long name value => r.takeLong name value
  | .options, .short letter attached => r.takeShort letter attached

/-- The end of the arguments.  An option cannot lack its value, and a script cannot be given both
as a text and as a file. -/
def finish : Mode × Request → Reading
  | (.value _, _) => .mistake
  | (_, r) => if r.file.isSome && r.script.isSome then .mistake else .request r

/-- Reads the arguments of the command line. -/
def read (arguments : List String) : Reading :=
  match arguments.foldlM step (.options, ⟨none, none, false, false, none⟩) with
  | .ok state => finish state
  | .error reading => reading

end Request

end Abacus
