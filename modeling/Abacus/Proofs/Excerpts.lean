import Mathlib.Data.List.Infix
import Mathlib.Tactic.Common
import Abacus.Proofs.ErrorPlaces
import Abacus.Proofs.Numerals
import Abacus.Proofs.Unreadable
import Abacus.Report
import Abacus.Session

/-!
# Reports show what is wrong

The report of a script that cannot be read, or is no program, shows a line of the script and marks a
column.  Scanning counts lines by line feeds and columns by characters, while a report splits the
script into lines, which lose their endings.  Both agree: the line that is shown holds the offending
text, and it starts at the column.

The offending text is the lexeme of a token or an unreadable fragment.  There is no blank in it, so
it lies within its line, and what a line loses at its end is no part of it.

## Main definitions

* `Abacus.Text.IsWord` — a text without blanks that is not empty.
* `Abacus.Text.StandsAt` — a word that stands at a place of a text.
* `Abacus.Text.HasLines` — whole lines of a text.
* `Abacus.Report.Offends` — the offending text of a failure.
* `Abacus.Report.ShowsFault` — a report that shows it.

## Main results

* `Abacus.Text.lines_show` — a word is shown in its line, at its column.
* `Abacus.Token.standsAt_of_tokenize`, `Abacus.Token.fragment_standsAt_of_tokenize` — tokens and
  fragments are such words.
* `Abacus.Report.hasLines_render` — the lines that a report prints.
* `Abacus.Report.render_shows_fault` — a report shows the offending text.
-/

namespace Abacus

/-! ## Lines -/

namespace Text

/-- A text without blanks that is not empty. -/
structure IsWord (word : List Char) : Prop where
  ne_nil : word ≠ []
  not_blank : ∀ c ∈ word, isBlank c = false

/-- There is no blank in a word. -/
lemma IsWord.not_mem {word : List Char} (h : IsWord word) {c : Char} (hc : isBlank c = true) :
    c ∉ word := by
  intro hmem
  rw [h.not_blank c hmem] at hc
  cases hc

/-- What has no line feed belongs to the first line. -/
lemma splitLine_append {cs : List Char} (h : '\n' ∉ cs) (ds : List Char) :
    splitLine (cs ++ ds) = (cs ++ (splitLine ds).1, (splitLine ds).2) := by
  induction cs with
  | nil => rfl
  | cons c cs ih =>
    rw [List.mem_cons, not_or] at h
    rw [List.cons_append, splitLine, ih h.2]
    · rfl
    · exact fun hc => h.1 hc.symm

/-- A line feed ends the first line at once. -/
private lemma splitLine_newline (ds : List Char) : splitLine ('\n' :: ds) = ([], some ds) := by
  rw [splitLine]

/-- The lines of a text are its first line and those of the rest. -/
lemma lines_of_splitLine {cs line : List Char} {rest : Option (List Char)} (hne : cs ≠ [])
    (h : splitLine cs = (line, rest)) :
    lines cs = rest.elim [line] fun others => dropReturn line :: lines others := by
  cases cs with
  | nil => exact absurd rfl hne
  | cons c cs =>
    rw [lines]
    split
    · next h' => rw [h] at h'; cases h'; rfl
    · next h' => rw [h] at h'; cases h'; rfl

/-- A line loses nothing but a carriage return at its end. -/
private lemma prefix_dropReturn {cs : List Char} (h : cs.getLast? ≠ some '\r') (ds : List Char) :
    cs <+: dropReturn (cs ++ ds) := by
  rw [dropReturn]
  split
  · next hreturn =>
    cases ds with
    | nil => exact absurd (by rwa [List.append_nil] at hreturn) h
    | cons d ds =>
      rw [List.dropLast_append_of_ne_nil (List.cons_ne_nil d ds)]
      exact List.prefix_append cs _
  · exact List.prefix_append cs ds

/-- The first line of a text shows what comes before the first line feed, unless that ends with a
carriage return. -/
private lemma exists_first_line {cs : List Char} (hline : '\n' ∉ cs) (hne : cs ≠ [])
    (hlast : cs.getLast? ≠ some '\r') (ds : List Char) :
    ∃ line, (lines (cs ++ ds))[0]? = some line ∧ cs <+: line := by
  have hne' : cs ++ ds ≠ [] := List.append_ne_nil_of_left_ne_nil hne ds
  rw [lines_of_splitLine hne' (splitLine_append hline ds)]
  cases (splitLine ds).2 with
  | none => exact ⟨_, rfl, List.prefix_append cs _⟩
  | some others => exact ⟨_, rfl, prefix_dropReturn hlast _⟩

/-- A line feed ends the first line. -/
private lemma lines_newline {cs : List Char} (hline : '\n' ∉ cs) (ds : List Char) :
    lines (cs ++ '\n' :: ds) = dropReturn cs :: lines ds := by
  have hne : cs ++ '\n' :: ds ≠ [] :=
    List.append_ne_nil_of_right_ne_nil cs (List.cons_ne_nil _ _)
  rw [lines_of_splitLine hne (splitLine_append hline _), splitLine_newline, List.append_nil]
  rfl

/-- **A word is shown in its line**, at its column: the line with as many line feeds before it as
there are before the word, and as many characters as come after the last of these.

**Proof sketch.** Induction on the text before the word.  If it has no line feed, the word is in the
first line.  Otherwise the first line ends before the word, and neither the column nor the lines
after it are changed by leaving it out. -/
theorem lines_show {word : List Char} (hword : IsWord word) (before after : List Char) :
    ∃ line, (lines (before ++ word ++ after))[before.count '\n']? = some line ∧
      word <+: line.drop (before.reverse.takeWhile (· ≠ '\n')).length := by
  induction hlength : before.length using Nat.strongRecOn generalizing before with
  | ind n ih =>
    obtain ⟨body, more, rfl, hbody, hends⟩ := Token.exists_line before
    have hcount : body.count '\n' = 0 := List.count_eq_zero_of_not_mem hbody
    rcases hends with rfl | ⟨rest, rfl⟩
    · have hcolumn : (body.reverse.takeWhile (· ≠ '\n')).length = body.length := by
        rw [List.takeWhile_eq_self_iff.2, List.length_reverse]
        intro c hc
        exact decide_eq_true fun h => hbody (h ▸ List.mem_reverse.1 hc)
      have hbody' : '\n' ∉ body ++ word := by
        simp only [List.mem_append, not_or]
        exact ⟨hbody, hword.not_mem (by decide)⟩
      have hlast : (body ++ word).getLast? ≠ some '\r' := by
        rw [List.getLast?_append_of_ne_nil _ hword.ne_nil]
        exact fun h => hword.not_mem (by decide) (List.mem_of_getLast? h)
      have hne : body ++ word ≠ [] := List.append_ne_nil_of_right_ne_nil body hword.ne_nil
      rw [List.append_nil, hcount, hcolumn]
      obtain ⟨line, hline, hshown⟩ := exists_first_line hbody' hne hlast after
      refine ⟨line, hline, ?_⟩
      have hdrop := hshown.drop body.length
      rwa [List.drop_left] at hdrop
    · have hsplit : body ++ '\n' :: rest ++ word ++ after =
          body ++ '\n' :: (rest ++ word ++ after) := by simp
      have hcolumn : ((body ++ '\n' :: rest).reverse.takeWhile (· ≠ '\n')) =
          rest.reverse.takeWhile (· ≠ '\n') := by
        have hall : (rest.reverse.takeWhile (· ≠ '\n')).length = rest.reverse.length →
            rest.reverse = rest.reverse.takeWhile (· ≠ '\n') :=
          fun h => ((List.takeWhile_prefix _).eq_of_length h).symm
        simpa [List.takeWhile_append] using hall
      have hshorter : rest.length < n := by
        rw [← hlength, List.length_append, List.length_cons]
        omega
      obtain ⟨line, hline, hshown⟩ := ih rest.length hshorter rest rfl
      rw [hsplit, lines_newline hbody, hcolumn, List.count_append, List.count_cons_self, hcount,
        Nat.zero_add]
      exact ⟨line, hline, hshown⟩

/-- There is no line feed before the end of the first line. -/
private lemma newline_not_mem_splitLine (cs : List Char) : '\n' ∉ (splitLine cs).1 := by
  fun_induction splitLine cs with
  | case1 => simp
  | case2 => simp
  | case3 c cs hc line rest hsplit ih =>
    rw [hsplit] at ih
    simp only [List.mem_cons, not_or]
    exact ⟨fun h => hc h.symm, ih⟩

/-- **There is no line feed in a line.** -/
private lemma newline_not_mem_of_mem_lines {cs line : List Char}
    (h : line ∈ lines cs) : '\n' ∉ line := by
  induction hlength : cs.length using Nat.strongRecOn generalizing cs with
  | ind n ih =>
    by_cases hne : cs = []
    · rw [hne, lines] at h
      cases h
    · have hfirst := newline_not_mem_splitLine cs
      rw [lines_of_splitLine hne rfl] at h
      cases hrest : (splitLine cs).2 with
      | none =>
        rw [hrest] at h
        simp only [Option.elim_none, List.mem_singleton] at h
        rwa [h]
      | some others =>
        rw [hrest] at h
        simp only [Option.elim_some, List.mem_cons] at h
        rcases h with h | h
        · -- what a line loses at its end leaves no line feed behind
          rw [h, dropReturn]
          split
          · exact fun hmem => hfirst (List.mem_of_mem_dropLast hmem)
          · exact hfirst
        · have hshorter : others.length < cs.length :=
            length_lt_of_splitLine (Prod.ext rfl hrest)
          exact ih others.length (by omega) h rfl

/-- Whole lines that stand one below the other in a text: a line feed ends each of them and is not
within, and what stands above them is empty or ends with a line feed. -/
structure HasLines (text : List Char) (found : List (List Char)) : Prop where
  newline_not_mem : ∀ line ∈ found, '\n' ∉ line
  exists_above : ∃ above below, text = above ++ found.flatMap (· ++ ['\n']) ++ below ∧
    (above = [] ∨ above.getLast? = some '\n')

/-- A word that stands at a place of a text. -/
structure StandsAt (text : List Char) (s : Span) (word : List Char) : Prop where
  isWord : IsWord word
  exists_before : ∃ before after, text = before ++ word ++ after ∧ s.Marks before

/-- What stands at a place is shown there. -/
lemma StandsAt.shown {text word : List Char} {s : Span} (h : StandsAt text s word) :
    ∃ line, (lines text)[s.line - 1]? = some line ∧ word <+: line.drop s.column := by
  obtain ⟨before, after, rfl, hmarks⟩ := h.exists_before
  rw [hmarks.line, hmarks.column, Nat.add_sub_cancel_left]
  exact lines_show h.isWord before after

/-- The first character of what stands at a place is shown at its column. -/
lemma getElem?_of_shown {shown rest : List Char} {c : Char} {column : Nat}
    (h : c :: rest <+: shown.drop column) : shown[column]? = some c := by
  obtain ⟨tail, htail⟩ := h
  have hhead : (shown.drop column)[0]? = some c := by
    rw [← htail]
    rfl
  rwa [List.getElem?_drop, Nat.add_zero] at hhead

end Text

/-! ## Tokens and fragments -/

open Text (isBlank IsWord StandsAt)

/-- There is no blank in a lexeme. -/
lemma Match.isWord_lexeme {cs : List Char} {m : Match} (h : first? cs = some m) :
    IsWord m.lexeme := by
  obtain ⟨hne, more, rfl⟩ := first?_lexeme h
  refine ⟨hne, fun c hc => ?_⟩
  by_contra hblank
  -- up to the blank the same would be read, and that is less than the lexeme
  obtain ⟨front, back, hsplit⟩ := List.append_of_mem hc
  have hread : first? (front ++ c :: (back ++ more)) = some m := by
    rw [← h, hsplit, List.append_assoc, List.cons_append]
  rw [first?_append_blank (eq_true_of_ne_false hblank)] at hread
  have hlength := (first?_lexeme hread).2.length_le
  rw [hsplit, List.length_append, List.length_cons] at hlength
  omega

namespace Token

/-- The lexemes of tokens are words. -/
private lemma isWord_of_scan {s : Span} {cs : List Char} {tokens : List Token}
    (h : scan s cs = .ok tokens) : ∀ t ∈ tokens, IsWord t.lexeme.toList := by
  refine scan_ok_induction (P := fun _ _ tokens => ∀ t ∈ tokens, IsWord t.lexeme.toList) ?_ ?_ h
  · exact fun _ _ _ _ => List.forall_mem_nil _
  · intro s t cs rest m tokens _ hm ih
    refine List.forall_mem_cons.2 ⟨?_, ih⟩
    rw [String.toList_ofList]
    exact Match.isWord_lexeme hm

/-- The lexemes of a layout stand in the text, at the places of the tokens. -/
lemma Layout.exists_before {before text : List Char} {tokens : List Token}
    (h : Layout before text tokens) : ∀ t ∈ tokens, ∃ passed after,
      text = passed ++ t.lexeme.toList ++ after ∧ t.span.Marks (before ++ passed) := by
  induction h with
  | last => exact List.forall_mem_nil _
  | @token before gap rest t tokens _ _ hmarks _ ih =>
    refine List.forall_mem_cons.2 ⟨⟨gap, rest, by simp, hmarks⟩, fun u hu => ?_⟩
    obtain ⟨passed, after, rfl, hplace⟩ := ih u hu
    refine ⟨gap ++ t.lexeme.toList ++ passed, after, by simp, ?_⟩
    simpa using hplace

/-- **Tokens stand in the script** at their places. -/
theorem standsAt_of_tokenize {source : String} {tokens : List Token}
    (h : tokenize source = .ok tokens) :
    ∀ t ∈ tokens, StandsAt source.toList t.span t.lexeme.toList := by
  intro t ht
  obtain ⟨before, after, htext, hmarks⟩ := (layout_of_scan h Span.marks_start).exists_before t ht
  exact ⟨isWord_of_scan h t ht, before, after, htext, hmarks⟩

/-- **An unreadable fragment stands in the script** at the place that is reported. -/
theorem fragment_standsAt_of_tokenize {source : String} {e : LexError}
    (h : tokenize source = .error e) : StandsAt source.toList e.span e.fragment.toList := by
  obtain ⟨before, c, after, pieces, last, htext, hsplit, hc⟩ := exists_splitting_of_error h
  rw [tokenize, htext, scan_of_unreadable hsplit hc] at h
  cases h
  have hrun := longestRun_takeWhile (c :: after)
  have hfirst : [c] <+: (c :: after).takeWhile fun c => !isBlank c :=
    hrun.longest (List.cons_prefix_cons.2 ⟨rfl, List.nil_prefix⟩)
      (List.forall_mem_singleton.2 hc.not_blank)
  obtain ⟨rest, hrest⟩ := hrun.starts
  refine ⟨⟨?_, ?_⟩, before, rest, ?_, Span.marks_start.advance before⟩
  · rw [String.toList_ofList]
    exact fun hnil => List.cons_ne_nil c [] (List.prefix_nil.1 (hnil ▸ hfirst))
  · rw [String.toList_ofList]
    exact hrun.not_blank
  · rw [String.toList_ofList, htext, List.append_assoc, hrest]

end Token

/-- A parse error has the place of a token. -/
lemma ParseError.exists_token {limit : Nat} {tokens : List Token} {e : ParseError}
    (h : Node.parse limit tokens = .error e) : ∃ t ∈ tokens, e.span = some t.span := by
  cases Node.points_of_parse h with
  | token ht => exact ⟨_, by simpa using ht, rfl⟩
  | last _ ht => exact ⟨_, List.mem_of_getLast? ht, rfl⟩
  | tooDeep ht => exact ⟨_, by simpa using ht, rfl⟩

/-! ## Reports -/

namespace Report

/-- The offending text of a failure of a script: an unreadable fragment, or the lexeme of a
token. -/
def Offends (source : String) (f : Failure) (s : Span) (word : List Char) : Prop :=
  f = .lex ⟨s, String.ofList word⟩ ∨
    ∃ tokens t e, Token.tokenize source = .ok tokens ∧ t ∈ tokens ∧ f = .parse e ∧
      t.span = s ∧ t.lexeme = String.ofList word

/-- **A failure has a place, and the offending text stands there.** -/
lemma exists_offends {limit : Nat} {source : String} {f : Failure}
    (h : Session.program limit source = .error f) :
    ∃ s word, f.span = some s ∧ Offends source f s word ∧ StandsAt source.toList s word := by
  rw [Session.program] at h
  split at h
  · next e hlex =>
    cases h
    refine ⟨e.span, e.fragment.toList, rfl, .inl ?_, Token.fragment_standsAt_of_tokenize hlex⟩
    rw [String.ofList_toList]
  · next tokens htokens =>
    split at h
    · next e hparse =>
      cases h
      obtain ⟨t, ht, hspan⟩ := ParseError.exists_token hparse
      refine ⟨t.span, t.lexeme.toList, hspan, .inr ⟨tokens, t, e, htokens, ht, rfl, rfl, ?_⟩,
        Token.standsAt_of_tokenize htokens t ht⟩
      rw [String.ofList_toList]
    · cases h

/-- The line of a report that shows a line of the script: the number of that line, moved to the
right of three columns, and its text after a bar. -/
def excerptLine (number : Nat) (shown : List Char) : List Char :=
  (toString number).toList.leftpad 3 ' ' ++ " | ".toList ++ shown

/-- The line of a report that marks a column. -/
def caretLine (column : Nat) : List Char :=
  "   | ".toList ++ List.replicate column ' ' ++ "^".toList

/-- A number is moved to the right by blanks. -/
private lemma toList_padded (number : Nat) :
    (padded number).toList = (toString number).toList.leftpad 3 ' ' := by
  rw [padded, String.toList_append, String.toList_ofList, List.leftpad, String.length_toList]

/-- What is printed where a line of the script is shown, and the caret below it. -/
private lemma toList_excerpt_lines (number column : Nat) (shown : List Char) :
    (line (padded number ++ " | " ++ String.ofList shown) ++ caret column).toList =
      [excerptLine number shown, caretLine column].flatMap (· ++ ['\n']) := by
  simp [line, caret, excerptLine, caretLine, toList_padded]

/-- There is no line feed in the digits of a number. -/
private lemma newline_not_mem_toString (number : Nat) : '\n' ∉ (toString number).toList := by
  intro hmem
  have hdigit := Decimal.isDigit_of_mem_digitsOf (n := number) (c := '\n')
    (by simpa [Nat.repr, Decimal.digitsOf] using hmem)
  exact absurd hdigit (by decide)

/-- There is no line feed in a line that shows one of the script. -/
private lemma newline_not_mem_excerptLine {shown : List Char} (h : '\n' ∉ shown) (number : Nat) :
    '\n' ∉ excerptLine number shown := by
  have hdigits := newline_not_mem_toString number
  simp only [excerptLine, List.leftpad, List.mem_append, List.mem_replicate, not_or]
  exact ⟨⟨⟨by simp, hdigits⟩, by decide⟩, h⟩

/-- There is no line feed in a line that marks a column. -/
private lemma newline_not_mem_caretLine (column : Nat) : '\n' ∉ caretLine column := by
  simp [caretLine]

/-- **A report prints the line of the script** with its number, and the caret below it. -/
theorem hasLines_render {r : Report} {f : Failure} {s : Span} {shown : List Char}
    (hspan : f.span = some s) (hline : (Text.lines r.source.toList)[s.line - 1]? = some shown) :
    Text.HasLines (r.render f).toList [excerptLine s.line shown, caretLine s.column] where
  newline_not_mem := by
    have hshown : '\n' ∉ shown := Text.newline_not_mem_of_mem_lines (List.mem_of_getElem? hline)
    rw [List.forall_mem_cons, List.forall_mem_singleton]
    exact ⟨newline_not_mem_excerptLine hshown _, newline_not_mem_caretLine _⟩
  exists_above := by
    have hsource : r.sourceLine s.line = String.ofList shown := by
      rw [sourceLine, hline]
      rfl
    let above := line ("error[" ++ f.code ++ "]: " ++ f.message) ++
      line ("  --> " ++ r.file ++ ":" ++ s.text) ++ line "   |"
    have hrender : ∃ below, r.render f = above ++
        (line (padded s.line ++ " | " ++ String.ofList shown) ++ caret s.column) ++ below := by
      simp only [render, hspan, excerpt, hsource]
      cases f.help with
      | none => exact ⟨"", by simp only [above, String.append_assoc]⟩
      | some text =>
        exact ⟨"\n" ++ line ("help: " ++ text), by simp only [above, String.append_assoc]⟩
    obtain ⟨below, hbelow⟩ := hrender
    refine ⟨above.toList, below.toList, ?_, .inr ?_⟩
    · rw [hbelow, String.toList_append, String.toList_append, toList_excerpt_lines]
    · have hbar : (line "   |").toList = "   |\n".toList := by decide
      rw [String.toList_append, hbar, List.getLast?_append_of_ne_nil _ (by decide)]
      decide

/-- What a report shows of a failure at a place.  The script has a line with the number of the
place, and the report prints that line after its number, with a caret line below it.  The offending
text starts with `c` and stands in the script at the offset of the place; and it is in the line that
is shown, with its first character at the column of the place. -/
structure ShowsFault (r : Report) (f : Failure) (s : Span) (shown : List Char) (c : Char)
    (rest : List Char) : Prop where
  span_eq : f.span = some s
  line_eq : (Text.lines r.source.toList)[s.line - 1]? = some shown
  printed : Text.HasLines (r.render f).toList [excerptLine s.line shown, caretLine s.column]
  offends : Offends r.source f s (c :: rest)
  stands : ∃ before after, r.source.toList = before ++ c :: rest ++ after ∧
    (String.ofList before).utf8ByteSize = s.offset
  char_eq : shown[s.column]? = some c
  whole : c :: rest <+: shown.drop s.column

/-- **A report shows the offending text.**  Let a script be unreadable, or no program under a limit
on nesting.  Then the failure has a place, the script has a line with the number of that place, and
the report shows it.  The character of the line at the column of the place is the first one of the
offending text, which stands in the script at the offset of the place; and all of that text is in
the line.

**Proof sketch.** Whatever failed, the offending text is a word that stands in the script at the
place of the failure, and a word is shown in its line, at its column. -/
theorem render_shows_fault (r : Report) (limit : Nat) (f : Failure)
    (h : Session.program limit r.source = .error f) :
    ∃ s shown c rest, r.ShowsFault f s shown c rest := by
  obtain ⟨s, word, hspan, hoffends, hstands⟩ := exists_offends h
  obtain ⟨shown, hline, hword⟩ := hstands.shown
  obtain ⟨before, after, htext, hmarks⟩ := hstands.exists_before
  cases word with
  | nil => exact absurd rfl hstands.isWord.ne_nil
  | cons c rest =>
    exact ⟨s, shown, c, rest, hspan, hline, hasLines_render hspan hline, hoffends,
      ⟨before, after, htext, hmarks.offset.symm⟩, Text.getElem?_of_shown hword, hword⟩

/-- A script with a comment, in which a character takes up two bytes, a line that ends with a
carriage return and a line feed, and a carriage return at its end: the parenthesis on its second
line is no statement. -/
theorem render_shows_fault_second_line :
    let source : String := "// é\r\n a )\r"
    let f : Failure := .parse (.expected .expression
      ⟨some Mark.rightParen.quoted, some ⟨10, 2, 3⟩⟩)
    let r : Report := ⟨"script", source⟩
    Session.program 1 source = .error f ∧
      Text.lines source.toList = ["// é".toList, " a )\r".toList] ∧
      ∃ s shown c rest, r.ShowsFault f s shown c rest := by
  intro source f r
  have htokens : Token.tokenize "// é\r\n a )\r" = .ok
      [⟨.identifier "a", "a", ⟨8, 2, 1⟩⟩, ⟨.mark .rightParen, ")", ⟨10, 2, 3⟩⟩] := by
    rw [Token.tokenize_eq_scanWithin]
    rfl
  have hprogram : Session.program 1 source = .error f := by
    rw [Session.program, show Token.tokenize source = _ from htokens]
    rfl
  have hlines : Text.lines source.toList = ["// é".toList, " a )\r".toList] := by decide +kernel
  exact ⟨hprogram, hlines, render_shows_fault r 1 f hprogram⟩

end Report

end Abacus
