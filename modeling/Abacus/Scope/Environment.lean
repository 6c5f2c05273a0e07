import Abacus.Failure
import Abacus.Scope.Frame
import Abacus.Settings.Basic

/-!
# Environments

An environment is everything that is bound while a program runs: the global frame, and a frame
for every call in progress if calls have frames of their own.  A name stands for what the
innermost frame that binds it says.

## Main definitions

* `Abacus.Environment` — frames, scoping, limits and the number of calls in progress.
* `Abacus.Environment.ofSettings` — the environment in which a session starts.
* `Abacus.Environment.lookup`, `valueOf`, `functionOf` — what a name stands for.
* `Abacus.Environment.define` — binds a name in the innermost frame.
* `Abacus.Environment.declare` — binds a name as a statement of a program does.
* `Abacus.Environment.remove` — unbinds a name.
* `Abacus.Environment.enterCall`, `leaveCall` — start and end of a call.
-/

namespace Abacus

/-- Everything that is bound while a program runs.  The innermost call frame comes first. -/
structure Environment where
  globals : Frame
  locals : List Frame
  scoping : Scoping
  limits : Limits
  callDepth : Nat

namespace Environment

/-! ## Frames -/

/-- The number of frames, the global frame among them. -/
def depth (env : Environment) : Nat := env.locals.length + 1

/-- All frames, innermost first. -/
def frames (env : Environment) : List Frame := env.locals ++ [env.globals]

/-! ## What a name stands for -/

/-- What a name stands for: the innermost frame that binds it decides. -/
def lookup (env : Environment) (name : String) : Option Binding :=
  env.frames.findSome? (·.get? name)

/-- Whether a name is bound. -/
def contains (env : Environment) (name : String) : Bool := (env.lookup name).isSome

/-- The value of a variable.  A function of that name does not count. -/
def valueOf (env : Environment) (name : String) : Except RuntimeError Float :=
  match env.lookup name with
  | some (.number value) => .ok value
  | _ => .error (.notDefined name)

/-- The function of a name.  A variable of that name does not count. -/
def functionOf (env : Environment) (name : String) : Except RuntimeError Function :=
  match env.lookup name with
  | some (.function f) => .ok f
  | _ => .error (.notDefined name)

/-! ## Binding and unbinding -/

/-- Binds a name in the global frame. -/
def bindGlobal (env : Environment) (name : String) (b : Binding) : Environment :=
  { env with globals := env.globals.insert name b }

/-- Binds a name in the innermost frame. -/
def define (env : Environment) (name : String) (b : Binding) : Environment :=
  match env.locals with
  | [] => env.bindGlobal name b
  | frame :: outer => { env with locals := frame.insert name b :: outer }

/-- Binds a name as a statement of a program does: a parameter of the call in progress is bound
anew in the call's frame, and every other name is bound globally. -/
def declare (env : Environment) (name : String) (b : Binding) : Environment :=
  match env.locals with
  | [] => env.bindGlobal name b
  | frame :: outer =>
    if frame.contains name then { env with locals := frame.insert name b :: outer }
    else env.bindGlobal name b

/-- Unbinds a name in the first of some frames that binds it, if one does. -/
def eraseInnermost (name : String) : List Frame → Option (List Frame)
  | [] => none
  | frame :: outer =>
    if frame.contains name then some (frame.erase name :: outer)
    else (eraseInnermost name outer).map (frame :: ·)

/-- Unbinds a name in the innermost frame that binds it. -/
def remove (env : Environment) (name : String) : Environment :=
  match eraseInnermost name env.locals with
  | some locals => { env with locals := locals }
  | none => { env with globals := env.globals.erase name }

/-! ## Calls -/

/-- Binds parameters to arguments, as far as there are both. -/
def bindParams (env : Environment) (params : List String) (arguments : List Float) :
    Environment :=
  (params.zip arguments).foldl (fun env (name, value) => env.define name (.number value)) env

/-- Starts a call of `f`: opens a frame if calls have frames, and binds the parameters. -/
def enterCall (env : Environment) (f : Function) (arguments : List Float) :
    Except RuntimeError Environment :=
  if env.limits.calls ≤ env.callDepth then .error (.callDepth f.name env.limits.calls)
  else
    let opened := match env.scoping with
      | .shared => env
      | .frames => { env with locals := .empty :: env.locals }
    .ok { opened.bindParams f.params arguments with callDepth := env.callDepth + 1 }

/-- Ends a call of `f`: drops its frame, or unbinds every parameter if names are shared. -/
def leaveCall (env : Environment) (f : Function) : Environment :=
  let released := match env.scoping with
    | .shared => f.params.foldl remove env
    | .frames => { env with locals := env.locals.tail }
  { released with callDepth := env.callDepth - 1 }

/-! ## The environment of a session -/

/-- The constants that every script finds bound. -/
def builtins : List Constant :=
  [⟨"PI", 3.141592653589793⟩, ⟨"E", 2.718281828459045⟩]

/-- The environment in which a session starts.  A host's constants win over the built-in ones. -/
def ofSettings (settings : Settings) : Environment :=
  let bare : Environment := ⟨.empty, [], settings.scoping, settings.limits, 0⟩
  (builtins ++ settings.constants).foldl (fun env c => env.define c.name (.number c.value)) bare

/-- The environment of a host that chooses only the scoping. -/
def withScoping (scoping : Scoping) : Environment :=
  ofSettings { Settings.initial with scoping := scoping }

/-- The environment of a host that chooses nothing. -/
def initial : Environment := ofSettings .initial

end Environment

end Abacus
