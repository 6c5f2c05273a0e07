import Mathlib.Data.List.Nodup
import Mathlib.Data.List.Perm.Basic
import Mathlib.Data.String.Basic
import Mathlib.Tactic.Common
import Abacus.Proofs.JsonWriting
import Abacus.Settings.Json

/-!
# Settings survive their text

Settings are read back from the text that they are written as.  Nothing depends on how that text is
laid out: members may stand in any order, members with their initial value may be left out, and
members with other keys may stand anywhere and have any value.

This holds with every strict library for JSON texts.  A constant has to be a double that the library
finds again from its text.

## Main definitions

* `Abacus.Settings.WellFormed` — limits of 64 bits, and finite constants in the order of their
  names.
* `Abacus.Settings.Presents` — the members that an object may have for these settings.

## Main results

* `Abacus.Settings.constants?_of_perm` — constants are read in any order.
* `Abacus.Settings.Presents.ofMembers?` — settings are read from all the members that present them.
* `Abacus.Settings.read_back` — settings survive their text.
-/

namespace Abacus

/-! ## Constants in the order of their names -/

namespace Constant

variable {c d : Constant} {cs ds : List Constant}

/-- Constants in the order of their names, each name once. -/
def Sorted (cs : List Constant) : Prop := cs.Pairwise (·.name < ·.name)

instance (cs : List Constant) : Decidable (Sorted cs) :=
  inferInstanceAs (Decidable (cs.Pairwise (·.name < ·.name)))

/-- Constants with different names, in any order. -/
def Distinct (cs : List Constant) : Prop := cs.Pairwise (·.name ≠ ·.name)

/-- Constants in the order of their names have different names. -/
lemma Sorted.distinct (h : Sorted cs) : Distinct cs := h.imp ne_of_lt

/-- Different names stay different in any order. -/
lemma Distinct.perm (h : Distinct cs) (hperm : cs.Perm ds) : Distinct ds :=
  (hperm.pairwise_iff Ne.symm).1 h

/-- Putting in a constant with a new name adds it. -/
private lemma insert_perm (h : ∀ d ∈ ds, c.name ≠ d.name) : (insert c ds).Perm (c :: ds) := by
  induction ds with
  | nil => exact .refl _
  | cons d ds ih =>
    obtain ⟨hne, hds⟩ := List.forall_mem_cons.1 h
    rw [insert, if_neg hne]
    split
    · exact .refl _
    · exact ((ih hds).cons d).trans (.swap c d ds)

/-- What is there after a constant is put in was there before, or is that constant. -/
private lemma mem_insert (h : d ∈ insert c ds) : d = c ∨ d ∈ ds := by
  induction ds with
  | nil => exact .inl (List.mem_singleton.1 h)
  | cons e ds ih =>
    rw [insert] at h
    grind

/-- Putting in a constant keeps the order. -/
lemma Sorted.insert (h : Sorted ds) (c : Constant) : Sorted (Constant.insert c ds) := by
  induction ds with
  | nil => exact List.pairwise_singleton _ _
  | cons d ds ih =>
    obtain ⟨hd, hds⟩ := List.pairwise_cons.1 h
    rw [Constant.insert]
    split
    · next hlt =>
      refine List.pairwise_cons.2 ⟨?_, h⟩
      intro e he
      rcases List.mem_cons.1 he with rfl | he
      · exact hlt
      · exact lt_trans hlt (hd e he)
    · next hle =>
      split
      · next heq =>
        refine List.pairwise_cons.2 ⟨?_, hds⟩
        intro e he
        rw [heq]
        exact hd e he
      · next hne =>
        refine List.pairwise_cons.2 ⟨?_, ih hds⟩
        intro e he
        rcases mem_insert he with rfl | he
        · exact lt_of_le_of_ne (not_lt.1 hle) (Ne.symm hne)
        · exact hd e he

/-- Putting constants in one after another keeps the order and loses none. -/
private lemma foldl_insert (hds : Sorted ds) (h : Distinct (cs ++ ds)) :
    Sorted (cs.foldl (fun ds c => insert c ds) ds) ∧
      (cs.foldl (fun ds c => insert c ds) ds).Perm (cs ++ ds) := by
  induction cs generalizing ds with
  | nil => exact ⟨hds, .refl _⟩
  | cons c cs ih =>
    have hperm : (insert c ds).Perm (c :: ds) := by
      apply insert_perm
      intro d hd
      exact (List.pairwise_cons.1 h).1 d (List.mem_append_right cs hd)
    have hmiddle : (cs ++ insert c ds).Perm (c :: cs ++ ds) :=
      (hperm.append_left cs).trans List.perm_middle
    obtain ⟨hsorted, hall⟩ := ih (hds.insert c) (h.perm hmiddle.symm)
    exact ⟨hsorted, hall.trans hmiddle⟩

/-- Constants put in one after another in any order end up in the order of their names. -/
private lemma foldl_insert_of_perm {order : List Constant} (h : Sorted cs) (hperm : order.Perm cs) :
    order.foldl (fun ds c => insert c ds) [] = cs := by
  have hdistinct : Distinct (order ++ []) := by
    rw [List.append_nil]
    exact h.distinct.perm hperm.symm
  obtain ⟨hsorted, hall⟩ := foldl_insert List.Pairwise.nil hdistinct
  rw [List.append_nil] at hall
  apply List.Perm.eq_of_pairwise ?_ hsorted h (hall.trans hperm)
  intro a b _ _ hab hba
  exact absurd hab (lt_asymm hba)

end Constant

namespace Settings

/-! ## Reading single members -/

/-- The constants of settings as members of an object. -/
def constantMembers (cs : List Constant) : List (Json.Member Json) :=
  cs.map fun c => .named c.name (.real c.value)

/-- Finite constants are read one after another and put in. -/
private lemma constantsOf?_constantMembers {cs : List Constant}
    (h : ∀ c ∈ cs, c.value.isFinite = true) (ds : List Constant) :
    constantsOf? ds (constantMembers cs) =
      some (cs.foldl (fun ds c => Constant.insert c ds) ds) := by
  induction cs generalizing ds with
  | nil => rfl
  | cons c cs ih =>
    obtain ⟨hc, hcs⟩ := List.forall_mem_cons.1 h
    have hstep : constantsOf? ds (constantMembers (c :: cs)) =
        constantsOf? (Constant.insert c ds) (constantMembers cs) := by
      simp [constantMembers, Json.Member.named, constantsOf?, number?, hc]
    rw [hstep, ih hcs, List.foldl_cons]

/-- **Constants are read in any order.** -/
theorem constants?_of_perm {cs order : List Constant} (hsorted : Constant.Sorted cs)
    (hfinite : ∀ c ∈ cs, c.value.isFinite = true) (hperm : order.Perm cs) :
    constants? (.object (constantMembers order)) = some cs := by
  rw [constants?, constantsOf?_constantMembers fun c hc => hfinite c (hperm.mem_iff.1 hc),
    Constant.foldl_insert_of_perm hsorted hperm]

/-! ## The members of an object -/

/-- The keys of the choices. -/
def choices : List String :=
  ["scoping", "max_call_depth", "max_nesting_depth", "max_loop_iterations", "constants"]

/-- The members that settings are written with, a member for each choice. -/
def members (s : Settings) : List (Json.Member Json) :=
  [.named "scoping" (.text s.scoping.text),
    .named "max_call_depth" (.natural s.limits.calls),
    .named "max_nesting_depth" (.natural s.limits.nesting),
    .named "max_loop_iterations" (s.limits.rounds.elim .null .natural),
    .named "constants" (.object (constantMembers s.constants))]

/-- Settings are written as the object of their members. -/
private lemma toJson_eq_members (s : Settings) : s.toJson = .object s.members := rfl

/-- There is one member for each choice, in their order. -/
lemma map_key_members (s : Settings) : s.members.map (·.key) = choices.map some := rfl

/-- An object with these members presents the settings.  Its members are those that the settings
are written with, with the constants in any order; members with their initial value may be left out,
members with other keys may be added, and all of them may stand in any order. -/
inductive Presents (s : Settings) : List (Json.Member Json) → Prop
  | arranged {order : List Constant} {kept unknown ms : List (Json.Member Json)} :
      order.Perm s.constants →
      kept.Sublist (members { s with constants := order }) →
      (∀ m ∈ members { s with constants := order }, m ∉ kept → m ∈ initial.members) →
      (∀ m ∈ unknown, ∃ key, m.key = some key ∧ key ∉ choices) →
      ms.Perm (kept ++ unknown) → Presents s ms

/-- Settings that can be written: limits of 64 bits, and finite constants in the order of their
names. -/
structure WellFormed (s : Settings) : Prop where
  calls_lt : s.limits.calls < Nat.pow 2 64
  nesting_lt : s.limits.nesting < Nat.pow 2 64
  rounds_lt : ∀ n ∈ s.limits.rounds, n < Nat.pow 2 64
  sorted : Constant.Sorted s.constants
  finite : ∀ c ∈ s.constants, c.value.isFinite = true

/-- No two members have the same key. -/
lemma nodup_keys (s : Settings) : (s.members.map (·.key)).Nodup := by
  rw [map_key_members]
  decide

/-- The key of a member is that of a choice. -/
lemma mem_choices_of_mem {s : Settings} {m : Json.Member Json} (h : m ∈ s.members) :
    ∃ key ∈ choices, m.key = some key := by
  have hmem : m.key ∈ choices.map some := by
    rw [← map_key_members s]
    exact List.mem_map_of_mem h
  obtain ⟨key, hkey, heq⟩ := List.mem_map.1 hmem
  exact ⟨key, hkey, heq.symm⟩

/-- A member is determined by its key. -/
lemma eq_of_mem_members {s : Settings} {m n : Json.Member Json} (hm : m ∈ s.members)
    (hn : n ∈ s.members) (h : m.key = n.key) : m = n :=
  List.inj_on_of_nodup_map (nodup_keys s) hm hn h

/-- Of some of the members at most one has a given key. -/
private lemma filter_key_of_sublist {s : Settings} {kept : List (Json.Member Json)}
    {m : Json.Member Json}
    (hkept : kept.Sublist s.members) (hm : m ∈ s.members) :
    m ∈ kept ∧ kept.filter (·.key = m.key) = [m] ∨
      m ∉ kept ∧ kept.filter (·.key = m.key) = [] := by
  have hinj : ∀ n ∈ kept, n.key = m.key → n = m := fun n hn heq =>
    eq_of_mem_members (hkept.subset hn) hm heq
  by_cases hmem : m ∈ kept
  · refine .inl ⟨hmem, List.perm_singleton.1 ?_⟩
    have hnodup := ((nodup_keys s).of_map.sublist hkept).filter (·.key = m.key)
    apply (List.perm_ext_iff_of_nodup hnodup (List.nodup_singleton m)).2
    intro n
    rw [List.mem_filter, List.mem_singleton, decide_eq_true_eq]
    constructor
    · exact fun hn => hinj n hn.1 hn.2
    · rintro rfl
      exact ⟨hmem, rfl⟩
  · refine .inr ⟨hmem, List.filter_eq_nil_iff.2 ?_⟩
    intro n hn heq
    rw [decide_eq_true_eq] at heq
    exact hmem (hinj n hn heq ▸ hn)

section Choices

variable {s : Settings} {kept unknown ms : List (Json.Member Json)}
  (hkept : kept.Sublist s.members)
  (hinitial : ∀ m ∈ s.members, m ∉ kept → m ∈ initial.members)
  (hunknown : ∀ m ∈ unknown, ∃ key, m.key = some key ∧ key ∉ choices)
  (hperm : ms.Perm (kept ++ unknown))

include hunknown hperm

/-- The members with the key of a choice are those that were kept, wherever they stand. -/
private lemma filter_key_perm {key : String} (hkey : key ∈ choices) :
    (ms.filter (·.key = some key)).Perm (kept.filter (·.key = some key)) := by
  have hnone : unknown.filter (·.key = some key) = [] := by
    apply List.filter_eq_nil_iff.2
    intro n hn
    obtain ⟨other, hother, hnot⟩ := hunknown n hn
    rw [hother, decide_eq_true_eq, Option.some.injEq]
    rintro rfl
    exact hnot hkey
  simpa [hnone] using hperm.filter (·.key = some key)

include hkept

/-- All keys have a text. -/
private lemma any_key_isNone : ms.any (·.key.isNone) = false := by
  apply List.any_eq_false.2
  intro m hm
  rcases List.mem_append.1 (hperm.mem_iff.1 hm) with hm | hm
  · obtain ⟨key, -, hkey⟩ := mem_choices_of_mem (hkept.subset hm)
    simp [hkey]
  · obtain ⟨key, hkey, -⟩ := hunknown m hm
    simp [hkey]

include hinitial

/-- A choice is read from its member, wherever that stands.  If the member is left out, the choice
has its initial value, and the member would have given the same. -/
lemma choice?_of_perm {α : Type} {key : String} {value value₀ : Json} {x x₀ : α}
    {read? : Json → Option α} (hm : .named key value ∈ s.members) (hread : read? value = some x)
    (hm₀ : .named key value₀ ∈ initial.members) (hread₀ : read? value₀ = some x₀) :
    choice? ms key x₀ read? = some x := by
  obtain ⟨_, hkey, ⟨⟩⟩ := mem_choices_of_mem hm
  have hfilter := filter_key_perm hunknown hperm hkey
  rcases filter_key_of_sublist hkept hm with ⟨-, hone⟩ | ⟨hnot, hnone⟩
  · have hone : ms.filter (·.key = some key) = [.named key value] :=
      List.perm_singleton.1 (hone ▸ hfilter)
    rw [choice?, hone]
    exact hread
  · have hnone : ms.filter (·.key = some key) = [] := List.Perm.eq_nil (hnone ▸ hfilter)
    cases eq_of_mem_members (hinitial _ hm hnot) hm₀ rfl
    rw [choice?, hnone, ← hread₀, hread]

end Choices

/-! ## Reading what presents settings -/

/-- A way of scoping is read back from its spelling. -/
lemma scoping?_text (scoping : Scoping) : scoping? (.text scoping.text) = some scoping :=
  Scoping.ofText?_text scoping

/-- A limit is read back from its number. -/
lemma limit?_natural (n : Nat) : limit? (.natural n) = some n := rfl

/-- A limit that may be absent is read back, also if it is absent. -/
lemma optionalLimit?_elim (rounds : Option Nat) :
    optionalLimit? (rounds.elim .null .natural) = some rounds := by
  cases rounds <;> rfl

/-- **Settings are read from all the members that present them.** -/
theorem Presents.ofMembers? {s : Settings} {ms : List (Json.Member Json)}
    (hsorted : Constant.Sorted s.constants)
    (hfinite : ∀ c ∈ s.constants, c.value.isFinite = true) (h : s.Presents ms) :
    Settings.ofMembers? ms = some s := by
  obtain @⟨order, kept, unknown, ms, horder, hkept, hinitial, hunknown, hperm⟩ := h
  have hnone := any_key_isNone hkept hunknown hperm
  have hscoping : choice? ms "scoping" initial.scoping scoping? = some s.scoping :=
    choice?_of_perm hkept hinitial hunknown hperm (by simp [members]) (scoping?_text _)
      (by simp [members]) (scoping?_text _)
  have hcalls : choice? ms "max_call_depth" initial.limits.calls limit? = some s.limits.calls :=
    choice?_of_perm hkept hinitial hunknown hperm (by simp [members]) (limit?_natural _)
      (by simp [members]) (limit?_natural _)
  have hnesting :
      choice? ms "max_nesting_depth" initial.limits.nesting limit? = some s.limits.nesting :=
    choice?_of_perm hkept hinitial hunknown hperm (by simp [members]) (limit?_natural _)
      (by simp [members]) (limit?_natural _)
  have hrounds : choice? ms "max_loop_iterations" initial.limits.rounds optionalLimit? =
      some s.limits.rounds :=
    choice?_of_perm hkept hinitial hunknown hperm (by simp [members]) (optionalLimit?_elim _)
      (by simp [members]) (optionalLimit?_elim _)
  have hempty : constants? (.object (constantMembers initial.constants)) = some initial.constants :=
    rfl
  have hconstants : choice? ms "constants" initial.constants constants? = some s.constants :=
    choice?_of_perm hkept hinitial hunknown hperm (by simp [members])
      (constants?_of_perm hsorted hfinite horder) (by simp [members]) hempty
  simp [Settings.ofMembers?, hnone, hscoping, hcalls, hnesting, hrounds, hconstants]

/-! ## The text of settings -/

variable {library : Json.Library}

/-- Constants that a library reads back are written legibly. -/
lemma legible_constantMembers {cs : List Constant} (h : ∀ c ∈ cs, library.ReadsBack c.value) :
    (Json.object (constantMembers cs)).Legible library := by
  refine .object fun m hm => ?_
  obtain ⟨c, hc, rfl⟩ := List.mem_map.1 hm
  exact .real (h c hc)

/-- Well-formed settings with constants that a library reads back are written legibly. -/
lemma WellFormed.legible {s : Settings} (hs : s.WellFormed)
    (hconstants : ∀ c ∈ s.constants, library.ReadsBack c.value) : s.toJson.Legible library := by
  have hrounds : (s.limits.rounds.elim Json.null Json.natural).Legible library := by
    cases hlimit : s.limits.rounds with
    | none => exact .null
    | some n => exact .natural (hs.rounds_lt n hlimit)
  rw [toJson_eq_members]
  refine .object fun m hm => ?_
  simp only [members, List.mem_cons, List.not_mem_nil, or_false] at hm
  rcases hm with rfl | rfl | rfl | rfl | rfl
  · exact .string _
  · exact .natural hs.calls_lt
  · exact .natural hs.nesting_lt
  · exact hrounds
  · exact legible_constantMembers hconstants

/-- The members that settings are written with present them. -/
private lemma presents_members (s : Settings) : s.Presents s.members :=
  .arranged (.refl s.constants) (List.Sublist.refl s.members) (fun _ hm hnot => absurd hm hnot)
    (List.forall_mem_nil _) (by rw [List.append_nil])

/-- A strict library reads settings from a text that spells an object with members that present
them. -/
lemma Presents.parseWith? {s : Settings} {ms : List (Json.Member Json)} {text : String}
    (hlibrary : library.Strict) (hs : s.WellFormed) (h : s.Presents ms)
    (htext : Json.Spells library.double text.toList (.element (.object ms))) :
    Settings.parseWith? library text = some s := by
  rw [Settings.parseWith?, hlibrary.read?_eq_some_iff.2 htext]
  exact h.ofMembers? hs.sorted hs.finite

/-- **Settings survive their text.**  Take any strict library for JSON texts, and well-formed
settings whose constants the library reads back; one that reads back all finite doubles does so for
all well-formed settings.  Then the settings are read back from the text that they are written as,
and from every text of an object whose members present them.

**Proof sketch.** The text that is written spells the object of the settings, since all strings and
all natural numbers of 64 bits are legible, and the constants are by assumption.  What a text spells
is what it is read as.  Each choice is read from the one member with its key, wherever that member
stands, or is initial as the settings are; constants are put in the order of their names, which is
the order that they had. -/
theorem read_back (hlibrary : library.Strict) {s : Settings} (hs : s.WellFormed)
    (hconstants : ∀ c ∈ s.constants, library.ReadsBack c.value) :
    parseWith? library (s.textWith library) = some s ∧
      ∀ (ms : List (Json.Member Json)) (text : String), s.Presents ms →
        Json.Spells library.double text.toList (.element (.object ms)) →
          parseWith? library text = some s := by
  constructor
  · have htext := hlibrary.spells_write (hs.legible hconstants)
    exact (presents_members s).parseWith? hlibrary hs htext
  · intro ms text hms htext
    exact hms.parseWith? hlibrary hs htext

/-- Settings with names that have to be escaped. -/
def escaped : Settings where
  scoping := .frames
  limits := ⟨256, 18446744073709551615, some 0⟩
  constants := [⟨"\"\\\n", 0.5⟩, ⟨"π\x00", -3e20⟩]

/-- Members that present them, the last first: the limit on calls has its initial value and is left
out, and a member with a nested value is added. -/
def escapedMembers : List (Json.Member Json) :=
  [.named "note" (.array [.bool true, .object [⟨none, .null⟩]]),
    .named "constants" (.object (constantMembers escaped.constants.reverse)),
    .named "max_loop_iterations" (.natural 0),
    .named "max_nesting_depth" (.natural 18446744073709551615),
    .named "scoping" (.text "frames")]

/-- Those members present those settings. -/
lemma presents_escapedMembers : escaped.Presents escapedMembers := by
  let kept : List (Json.Member Json) :=
    [.named "scoping" (.text "frames"),
      .named "max_nesting_depth" (.natural 18446744073709551615),
      .named "max_loop_iterations" (.natural 0),
      .named "constants" (.object (constantMembers escaped.constants.reverse))]
  let unknown : List (Json.Member Json) :=
    [.named "note" (.array [.bool true, .object [⟨none, .null⟩]])]
  have hkept : kept.Sublist (members { escaped with constants := escaped.constants.reverse }) :=
    .cons_cons _ (.cons _ (.cons_cons _ (.cons_cons _ (.cons_cons _ .slnil))))
  have hunknown : ∀ m ∈ unknown, ∃ key, m.key = some key ∧ key ∉ choices :=
    List.forall_mem_singleton.2 ⟨"note", rfl, by decide⟩
  have hperm : escapedMembers.Perm (kept ++ unknown) := List.reverse_perm (kept ++ unknown)
  refine .arranged (List.reverse_perm _) hkept ?_ hunknown hperm
  intro m hm hnot
  simp only [members, List.mem_cons, List.not_mem_nil, or_false] at hm
  rcases hm with rfl | rfl | rfl | rfl | rfl
  · exact absurd (by simp [kept, escaped, Scoping.text]) hnot
  · simp [members, escaped, initial, Limits.initial]
  · exact absurd (by simp [kept, escaped]) hnot
  · exact absurd (by simp [kept, escaped]) hnot
  · exact absurd (by simp [kept]) hnot

/-- These settings are read back with the library that is used, from the text that they are written
as and from the text of those members. -/
theorem read_back_escaped :
    Json.library.Strict ∧ escaped.WellFormed ∧
      (∀ c ∈ escaped.constants, Json.library.ReadsBack c.value) ∧
      escaped.Presents escapedMembers ∧
      parse? escaped.text = some escaped ∧
      parse? (Json.library.write (.object escapedMembers)) = some escaped := by
  have hs : escaped.WellFormed :=
    ⟨by decide, by decide, by decide, by decide +kernel, by decide +kernel⟩
  have hconstants : ∀ c ∈ escaped.constants, Json.library.ReadsBack c.value := by decide +kernel
  have hnote : (Json.array [.bool true, .object [⟨none, .null⟩]]).Legible Json.library :=
    .array (by simp [Json.Legible.bool, Json.Legible.object, Json.Legible.null])
  have hreversed := legible_constantMembers fun c hc => hconstants c (List.mem_reverse.1 hc)
  have hlegible : (Json.object escapedMembers).Legible Json.library := by
    refine .object ?_
    simp only [escapedMembers, List.forall_mem_cons]
    exact ⟨hnote, hreversed, .natural (by decide), .natural (by decide), .string _,
      List.forall_mem_nil _⟩
  obtain ⟨hread, hall⟩ := read_back Json.library_strict hs hconstants
  exact ⟨Json.library_strict, hs, hconstants, presents_escapedMembers, hread,
    hall _ _ presents_escapedMembers (Json.library_strict.spells_write hlegible)⟩

end Settings

end Abacus
