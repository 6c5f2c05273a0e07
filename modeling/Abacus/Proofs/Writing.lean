import Mathlib.Tactic.Common
import Abacus.Node.Basic
import Abacus.Proofs.Lexemes

/-!
# Writing programs

A program is written as tokens with spaces between them.  Parentheses make the text easy to read
back: every operation has its own, and so has every name that stands for its value, so that it is
not taken for a function that the next statement calls.

## Main definitions

* `Abacus.Kind.spelling`, `Abacus.Kind.text` — tokens as text.
* `Abacus.Node.written`, `Abacus.Node.writtenBlock` — nodes and blocks as tokens.
* `Abacus.Node.text` — a block as text.

## Main results

* `Abacus.Token.scan_text` — the tokens of a text are those that it was written from.
-/

namespace Abacus

/-! ## Tokens as text -/

namespace Kind

/-- The spelling of a token. -/
def spelling : Kind → List Char
  | operator op => [op.symbol]
  | number value => (Number.text value).toList
  | identifier name => name.toList
  | keyword word => word.text.toList
  | mark m => [m.symbol]

/-- The spellings of some tokens, with a space between any two. -/
def text (kinds : List Kind) : List Char := [' '].intercalate (kinds.map spelling)

/-- A token that can be read off its spelling: every name in it is one, and every number is one that
its text reads back as. -/
def Legible : Kind → Prop
  | number value => Number.ReadsBack value
  | identifier name => IsName name
  | _ => True

end Kind

/-! ## Nodes as tokens -/

namespace Node

/-- Some tokens in braces. -/
def inBraces (kinds : List Kind) : List Kind := .mark .leftBrace :: (kinds ++ [.mark .rightBrace])

mutual

/-- The tokens of a node. -/
def written : Node → List Kind
  | literal value => [.number value]
  | name id => [.mark .leftParen, .identifier id, .mark .rightParen]
  | binary op left right =>
    .mark .leftParen :: (left.written ++ .operator op :: (right.written ++ [.mark .rightParen]))
  | call callee arguments =>
    .identifier callee :: .mark .leftParen ::
      ([.mark .comma].intercalate (writtenEach arguments) ++ [.mark .rightParen])
  | declare id value => .keyword .ref :: .identifier id :: .mark .equals :: value.written
  | define ⟨id, params, body⟩ =>
    .keyword .fn :: .identifier id :: .mark .leftParen ::
      ([.mark .comma].intercalate (params.map fun param => [.identifier param]) ++
        .mark .rightParen :: inBraces (writtenEach body).flatten)
  | choose branches none => (writtenArms branches).tail
  | choose branches (some body) =>
    (writtenArms branches).tail ++ .keyword .else_ :: inBraces (writtenEach body).flatten
  | loop conditions body =>
    .keyword .while_ :: ((writtenEach conditions).flatten ++ inBraces (writtenEach body).flatten)
  | block body => inBraces (writtenEach body).flatten

/-- The tokens of each of some nodes. -/
def writtenEach : List Node → List (List Kind)
  | [] => []
  | node :: nodes => node.written :: writtenEach nodes

/-- The tokens of some arms of a conditional, each after the word `else`.  The first arm stands
without it. -/
def writtenArms : List (Branch Node) → List Kind
  | [] => []
  | ⟨condition, body⟩ :: branches =>
    .keyword .else_ :: .keyword .if_ ::
      (condition.written ++ inBraces (writtenEach body).flatten ++ writtenArms branches)

end

/-- The tokens of a block. -/
def writtenBlock (block : Block) : List Kind := block.flatMap written

/-- The tokens of the last body of a conditional, if it has one. -/
def writtenOtherwise : Option Block → List Kind
  | none => []
  | some body => .keyword .else_ :: inBraces (writtenBlock body)

/-- The text of a block. -/
def text (block : Block) : String := String.ofList (Kind.text (writtenBlock block))

/-- Several nodes are written one by one. -/
lemma writtenEach_eq_map (nodes : List Node) : writtenEach nodes = nodes.map written := by
  induction nodes with
  | nil => rw [writtenEach, List.map_nil]
  | cons node nodes ih => rw [writtenEach, ih, List.map_cons]

/-- A block is written as its statements. -/
lemma flatten_writtenEach (nodes : List Node) :
    (writtenEach nodes).flatten = writtenBlock nodes := by
  rw [writtenEach_eq_map, writtenBlock, List.flatMap_def]

/-- How a call is written. -/
lemma written_call (callee : String) (arguments : List Node) :
    written (.call callee arguments) = .identifier callee :: .mark .leftParen ::
      ([.mark .comma].intercalate (arguments.map written) ++ [.mark .rightParen]) := by
  rw [written, writtenEach_eq_map]

/-- How a function is written. -/
lemma written_define (id : String) (params : List String) (body : Block) :
    written (.define ⟨id, params, body⟩) = .keyword .fn :: .identifier id :: .mark .leftParen ::
      ([.mark .comma].intercalate (params.map fun param => [.identifier param]) ++
        .mark .rightParen :: inBraces (writtenBlock body)) := by
  rw [written, flatten_writtenEach]

/-- How a conditional is written: all its arms alike, without the first `else`. -/
lemma written_choose (branches : List (Branch Node)) (otherwise : Option Block) :
    written (.choose branches otherwise) =
      (writtenArms branches).tail ++ writtenOtherwise otherwise := by
  cases otherwise with
  | none => rw [written, writtenOtherwise, List.append_nil]
  | some body => rw [written, writtenOtherwise, flatten_writtenEach]

/-- How an arm is written after others. -/
lemma writtenArms_cons (branch : Branch Node) (branches : List (Branch Node)) :
    writtenArms (branch :: branches) = .keyword .else_ :: .keyword .if_ ::
      (branch.condition.written ++ inBraces (writtenBlock branch.body) ++
        writtenArms branches) := by
  rw [writtenArms, flatten_writtenEach]

/-- How a loop is written. -/
lemma written_loop (condition : Node) (body : Block) :
    written (.loop [condition] body) =
      .keyword .while_ :: (condition.written ++ inBraces (writtenBlock body)) := by
  rw [written, flatten_writtenEach, flatten_writtenEach, writtenBlock, List.flatMap_singleton]

end Node

/-! ## Reading tokens off their text -/

/-- The spelling of a legible token is a lexeme. -/
lemma Kind.Legible.lexeme {kind : Kind} (h : kind.Legible) : Lexeme kind.spelling kind := by
  cases kind with
  | operator op => exact .operator op
  | number value =>
    obtain ⟨d, hspells, rfl⟩ := Number.ReadsBack.exists_spells h
    exact .number hspells
  | identifier name => exact .identifier h
  | keyword word => exact .keyword word
  | mark m => exact .mark m

namespace Token

/-- A legible token in front of a blank or of the end of a text. -/
lemma scan_spelling {kind : Kind} (h : kind.Legible) {rest : List Char}
    (hrest : rest = [] ∨ ∃ more, rest = ' ' :: more) (s : Span) :
    scan s (kind.spelling ++ rest) =
      (scan (s.advance kind.spelling) rest).map
        (⟨kind, String.ofList kind.spelling, s⟩ :: ·) := by
  have hstops : ∀ c ∈ rest.head?, ¬ kind.Joins kind.spelling c := by
    intro c hc
    rcases hrest with rfl | ⟨more, rfl⟩
    · cases hc
    · cases hc
      exact Kind.not_joins_of_isBlank (by decide) _ _
  obtain ⟨rule, hread⟩ := h.lexeme.first?_append hstops
  exact scan_of_match (m := ⟨rule, kind.spelling, kind⟩)
    (skipTrivia_of_solid (h.lexeme.solid_append hstops) s) hread

/-- **The tokens of a text are those that it was written from**, if they are legible. -/
theorem scan_text : ∀ {kinds : List Kind}, (∀ kind ∈ kinds, kind.Legible) → ∀ s : Span,
    ∃ tokens, scan s (Kind.text kinds) = .ok tokens ∧ tokens.map (·.kind) = kinds
  | [], _, s => ⟨[], scan_of_end (skipTrivia_of_solid solid_nil s), rfl⟩
  | [kind], h, s => by
    have hscan := scan_spelling (h kind (by simp)) (.inl rfl) s
    rw [scan_of_end (skipTrivia_of_solid solid_nil _), List.append_nil] at hscan
    have htext : Kind.text [kind] = kind.spelling := by simp [Kind.text]
    rw [htext]
    exact ⟨[⟨kind, String.ofList kind.spelling, s⟩], hscan, rfl⟩
  | kind :: next :: kinds, h, s => by
    have htext : Kind.text (kind :: next :: kinds) =
        kind.spelling ++ ' ' :: Kind.text (next :: kinds) := by
      simp [Kind.text]
    have hblank : Text.isBlank ' ' = true := by decide
    obtain ⟨tokens, htokens, hkinds⟩ := scan_text (fun k hk => h k (List.mem_cons_of_mem _ hk))
      ((s.advance kind.spelling).step ' ')
    refine ⟨⟨kind, String.ofList kind.spelling, s⟩ :: tokens, ?_, by rw [List.map_cons, hkinds]⟩
    rw [htext, scan_spelling (h kind (by simp)) (.inr ⟨_, rfl⟩),
      scan_congr (skipTrivia_blank hblank _ _), htokens]
    rfl

end Token

end Abacus
