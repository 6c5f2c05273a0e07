import Abacus.Span

/-!
# Failures

What can go wrong with a script, by cause: the text holds something that is no token, the
tokens are no program, or the program fails while it is evaluated.  Every cause has a message, a
stable code, and some have advice.

## Main definitions

* `Abacus.LexError`, `Abacus.ParseError`, `Abacus.RuntimeError` — the causes.
* `Abacus.Failure` — any of them.
* `Abacus.Failure.message`, `code`, `span`, `help` — what a reader is told.
-/

namespace Abacus

/-! ## Causes -/

/-- No lexical rule applies.  The fragment is the text from there up to the next blank. -/
structure LexError where
  span : Span
  fragment : String
deriving DecidableEq, Repr

namespace LexError

/-- The message for a reader. -/
def message (e : LexError) : String :=
  "unexpected input `" ++ e.fragment ++ "` at " ++ e.span.text

end LexError

/-- What the grammar wanted at a place. -/
inductive Expectation where
  | number
  | identifier
  | operator
  | expression
  | text (description : String)
deriving DecidableEq, Repr

namespace Expectation

/-- An expectation in words. -/
def describe : Expectation → String
  | number => "a number"
  | identifier => "an identifier"
  | operator => "an operator"
  | expression => "an expression"
  | text description => description

/-- The code of the failure to meet an expectation. -/
def code : Expectation → String
  | number => "T0101"
  | identifier => "T0102"
  | operator => "T0103"
  | expression => "T0104"
  | text _ => "T0105"

end Expectation

/-- What was found where the grammar wanted something else: a token in words, if there was one,
and a place to point at. -/
structure Sighting where
  found : Option String
  span : Option Span
deriving DecidableEq, Repr

/-- The tokens are no program. -/
inductive ParseError where
  | expected (what : Expectation) (sighting : Sighting)
  | nestingTooDeep (limit : Nat) (span : Option Span)
deriving DecidableEq, Repr

namespace ParseError

/-- The message for a reader. -/
def message : ParseError → String
  | expected what sighting =>
    "expected " ++ what.describe ++ ", found " ++ sighting.found.getD "end of input"
  | nestingTooDeep limit _ =>
    "nesting exceeded the limit of " ++ toString limit ++ " levels"

/-- The place to point at. -/
def span : ParseError → Option Span
  | expected _ sighting => sighting.span
  | nestingTooDeep _ span => span

/-- The stable code. -/
def code : ParseError → String
  | expected what _ => what.code
  | nestingTooDeep _ _ => "T0106"

/-- Advice, where there is some. -/
def help : ParseError → Option String
  | expected .identifier _ => some "function parameters must be plain names"
  | expected _ _ => none
  | nestingTooDeep _ _ =>
    some "split the expression into `ref` steps, or raise `max_nesting_depth`"

end ParseError

/-- The program fails while it is evaluated. -/
inductive RuntimeError where
  | notDefined (name : String)
  | argumentCount (name : String) (expected found : Nat)
  | emptyBlock
  | callDepth (name : String) (limit : Nat)
  | iterationLimit (limit : Nat)
deriving DecidableEq, Repr

namespace RuntimeError

/-- The message for a reader. -/
def message : RuntimeError → String
  | notDefined name => "`" ++ name ++ "` is not defined"
  | argumentCount name expected found =>
    "`" ++ name ++ "` takes " ++ toString expected ++ " argument(s) but " ++ toString found ++
      " were supplied"
  | emptyBlock => "expected an expression, found an empty block"
  | callDepth name limit =>
    "call depth exceeded the limit of " ++ toString limit ++ " while calling `" ++ name ++ "`"
  | iterationLimit limit =>
    "loop exceeded the limit of " ++ toString limit ++ " iterations"

/-- The stable code. -/
def code : RuntimeError → String
  | notDefined _ => "T0201"
  | argumentCount _ _ _ => "T0202"
  | emptyBlock => "T0203"
  | callDepth _ _ => "T0204"
  | iterationLimit _ => "T0205"

/-- Advice, where there is some. -/
def help : RuntimeError → Option String
  | notDefined _ => some "declare variables with `ref name = value` and functions with `fn`"
  | emptyBlock => some "a block evaluates to its last statement, so it cannot be empty"
  | _ => none

end RuntimeError

/-! ## Any failure -/

/-- A failure of any stage. -/
inductive Failure where
  | lex (e : LexError)
  | parse (e : ParseError)
  | runtime (e : RuntimeError)
deriving DecidableEq, Repr

namespace Failure

/-- The message for a reader. -/
def message : Failure → String
  | lex e => e.message
  | parse e => e.message
  | runtime e => e.message

/-- The stable code. -/
def code : Failure → String
  | lex _ => "T0001"
  | parse e => e.code
  | runtime e => e.code

/-- The place to point at.  Programs keep no places, so a failure of evaluation has none. -/
def span : Failure → Option Span
  | lex e => some e.span
  | parse e => e.span
  | runtime _ => none

/-- Advice, where there is some. -/
def help : Failure → Option String
  | lex _ =>
    some "only numbers, names, `+ - * /` and `( ) \x7b \x7d [ ] , =` are valid"
  | parse e => e.help
  | runtime e => e.help

end Failure

end Abacus
