import Mathlib.Data.List.Basic
import PhraseGraph.Pattern.Written
import PhraseGraph.Proofs.Pattern.Language
import PhraseGraph.Proofs.Regex.Form

/-!
# PhraseGraph.Proofs.Pattern.Written

The written form of a pattern is read as it is meant.

No character of a tag or headword is read as anything else than itself, and no group, choice or
repetition as anything else than that of the pattern.

## Main statements

`Pattern.read?_source`: the text of a pattern has the form that follows the pattern, unless a
repetition in the pattern asks for more copies than it allows.
`Pattern.matches_form`: this form matches the same as the expression of the pattern.
-/

namespace PhraseGraph

namespace Regex

/-- The row with more items. -/
def Row.append (row : Row) (es : List Form) : Row := ⟨row.branches, es.reverse ++ row.items⟩

/-- The row with more branches, each with items of its own. -/
def Row.appendBranches (row : Row) : List (List Form) → Row
  | [] => row
  | es :: others => (row.bar.append es).appendBranches others

theorem Row.form_appendBranches (row : Row) (ess : List (List Form)) :
    (row.appendBranches ess).form =
      .ofBranches (row.bar.branches.reverse ++ ess.map Form.ofItems) := by
  induction ess generalizing row with
  | nil => rw [appendBranches, form, List.map_nil, List.append_nil]
  | cons es others ih =>
    rw [appendBranches, ih]
    simp [bar, append]

theorem Row.form_branches (es : List Form) (others : List (List Form)) :
    ((Row.append {} es).appendBranches others).form =
      .ofBranches (.ofItems es :: others.map .ofItems) := by
  rw [form_appendBranches]
  simp [append, bar]

theorem Row.form_append (es : List Form) : (Row.append {} es).form = .ofItems es :=
  form_branches es []

namespace Reader

/-- A row is being read, and nothing else has been begun. -/
abbrev reading (row : Row) (outer : List Row) : Reader := ⟨.no, .row, row, outer⟩

/-- Wherever the text stands in a row, it puts these items there, or else cannot be read. -/
def Reads (cs : List Char) (readable : Bool) (es : List Form) : Prop :=
  ∀ row outer, cs.foldlM step (reading row outer) =
    if readable then some (reading (row.append es) outer) else none

variable {cs ds : List Char} {readable readable' : Bool} {es fs : List Form}

theorem reads_nil : Reads [] true [] := fun _ _ => rfl

theorem Reads.append (first : Reads cs readable es) (second : Reads ds readable' fs) :
    Reads (cs ++ ds) (readable && readable') (es ++ fs) := by
  intro row outer
  rw [List.foldlM_append, first]
  cases readable with
  | false => rfl
  | true =>
    refine (second _ _).trans ?_
    simp [Row.append]

/-! ### Characters -/

theorem reads_special {c : Char} (special : c ∈ metacharacters) :
    Reads ['\\', c] true [.literal c] := by
  intro row outer
  simp [step, special, exact, item, Row.push, Row.append]

theorem reads_ordinary {c : Char} (ordinary : c ∉ metacharacters) :
    Reads [c] true [.literal c] := by
  intro row outer
  have different {d : Char} (special : d ∈ metacharacters) : c ≠ d := by
    rintro rfl
    exact ordinary special
  have unescaped : c ≠ '\\' := different (by decide)
  -- whatever is a sign in a row has to be escaped
  simp only [List.foldlM_cons, List.foldlM_nil, step, unescaped, if_false, plain]
  rw [rowChar]
  · rfl
  all_goals exact different (by decide)

theorem reads_escape (cs : List Char) : Reads (Regex.escape cs) true (cs.map .literal) := by
  induction cs with
  | nil => exact reads_nil
  | cons c cs ih =>
    by_cases special : c ∈ metacharacters
    · simpa [Regex.escape, special] using (reads_special special).append ih
    · simpa [Regex.escape, special] using (reads_ordinary special).append ih

/-! ### Groups -/

/-- What is read from an empty row on, up to the bracket that closes the group. -/
theorem reads_writtenGroup {row : Row}
    (inside : ∀ outer, cs.foldlM step (reading {} outer) =
      if readable then some (reading row outer) else none) :
    Reads (Pattern.writtenGroup cs) readable [.group row.form] := by
  intro before outer
  have opens : ['(', '?', ':'].foldlM step (reading before outer) =
      some (reading {} (before :: outer)) := rfl
  have closes : [')'].foldlM step (reading row (before :: outer)) =
      some (reading (before.push (.group row.form)) outer) := rfl
  rw [Pattern.writtenGroup, List.foldlM_append, List.foldlM_append, opens, Option.bind_eq_bind,
    Option.bind_some, inside]
  cases readable with
  | false => rfl
  | true => exact closes

theorem Reads.group (inside : Reads cs readable es) :
    Reads (Pattern.writtenGroup cs) readable [.group (.ofItems es)] := by
  rw [← Row.form_append]
  exact reads_writtenGroup (inside {})

/-! ### Repetitions -/

/-- A sign behind a group repeats it, if the bounds of the sign are in order. -/
theorem Reads.repeated {e : Form} {least : Nat} {most : Option Nat}
    (first : Reads cs readable [.group e]) (sign : ∀ row outer,
      ds.foldlM step (reading row outer) = (reading row outer).repeated least most) :
    Reads (cs ++ ds) (readable && most.all (least ≤ ·)) [.repetition (.group e) least most] := by
  intro row outer
  rw [List.foldlM_append, first]
  cases readable with
  | false => rfl
  | true =>
    refine (sign _ _).trans ?_
    cases inOrder : most.all (least ≤ ·) <;> simp [Reader.repeated, Row.append, inOrder]

theorem ne_backslash_of_isDigit {c : Char} (digit : c.isDigit = true) : c ≠ '\\' := by
  rintro rfl
  exact absurd digit (by decide)

/-- Digits behind digits of the same number. -/
theorem foldlM_digits {place : Option Nat → Place}
    (next : ∀ n c row outer, c.isDigit = true →
      plain ⟨.no, place n, row, outer⟩ c = some ⟨.no, place (some (nextDigit n c)), row, outer⟩)
    (digits : ∀ c ∈ cs, c.isDigit = true) (n : Nat) (row : Row) (outer : List Row) :
    cs.foldlM step ⟨.no, place (some n), row, outer⟩ =
      some ⟨.no, place (some (Nat.ofDigitChars 10 cs n)), row, outer⟩ := by
  induction cs generalizing n with
  | nil => rfl
  | cons c cs ih =>
    obtain ⟨digit, later⟩ := List.forall_mem_cons.mp digits
    have read : step ⟨.no, place (some n), row, outer⟩ c =
        some ⟨.no, place (some (nextDigit (some n) c)), row, outer⟩ :=
      (if_neg (ne_backslash_of_isDigit digit)).trans (next (some n) c row outer digit)
    rw [List.foldlM_cons, read]
    exact (ih later _).trans (by rw [Nat.ofDigitChars_cons, nextDigit, Option.getD_some])

theorem foldlM_toDigits {place : Option Nat → Place}
    (next : ∀ n c row outer, c.isDigit = true →
      plain ⟨.no, place n, row, outer⟩ c = some ⟨.no, place (some (nextDigit n c)), row, outer⟩)
    (n : Nat) (row : Row) (outer : List Row) :
    (Nat.toDigits 10 n).foldlM step ⟨.no, place none, row, outer⟩ =
      some ⟨.no, place (some n), row, outer⟩ := by
  have digits : ∀ c ∈ Nat.toDigits 10 n, c.isDigit = true := fun c member =>
    Nat.isDigit_of_mem_toDigits (by decide) (by decide) member
  have value : Nat.ofDigitChars 10 (Nat.toDigits 10 n) 0 = n :=
    Nat.ofDigitChars_toDigits (by decide) (by decide)
  -- the first digit is read in the same way as behind a zero
  have first : (Nat.toDigits 10 n).foldlM step ⟨.no, place none, row, outer⟩ =
      (Nat.toDigits 10 n).foldlM step ⟨.no, place (some 0), row, outer⟩ := by
    cases shape : Nat.toDigits 10 n with
    | nil => exact absurd shape Nat.toDigits_ne_nil
    | cons c cs =>
      rw [shape] at digits
      have digit := digits c List.mem_cons_self
      have unescaped := ne_backslash_of_isDigit digit
      simp only [List.foldlM_cons, step, unescaped, if_false, next _ c row outer digit]
      rfl
  rw [first, foldlM_digits next digits, value]

theorem plain_least (n : Option Nat) (c : Char) (row : Row) (outer : List Row)
    (digit : c.isDigit = true) : plain ⟨.no, .least n, row, outer⟩ c =
      some ⟨.no, .least (some (nextDigit n c)), row, outer⟩ :=
  if_pos digit

theorem plain_most (least : Nat) (n : Option Nat) (c : Char) (row : Row) (outer : List Row)
    (digit : c.isDigit = true) : plain ⟨.no, .most least n, row, outer⟩ c =
      some ⟨.no, .most least (some (nextDigit n c)), row, outer⟩ :=
  if_pos digit

theorem foldlM_writtenBounds (least : Nat) (most : Option Nat) (row : Row) (outer : List Row) :
    (Pattern.writtenBounds least most).foldlM step (reading row outer) =
      (reading row outer).repeated least most := by
  have lower : ('\x7b' :: Nat.toDigits 10 least).foldlM step (reading row outer) =
      some ⟨.no, .least (some least), row, outer⟩ :=
    foldlM_toDigits plain_least least row outer
  have upper : (',' :: most.elim [] (Nat.toDigits 10)).foldlM step
      ⟨.no, .least (some least), row, outer⟩ = some ⟨.no, .most least most, row, outer⟩ := by
    cases most with
    | none => rfl
    | some most => exact foldlM_toDigits (plain_most least) most row outer
  have ends : ['\x7d'].foldlM step ⟨.no, .most least most, row, outer⟩ =
      (reading row outer).repeated least most := bind_pure _
  rw [Pattern.writtenBounds, List.foldlM_append, List.foldlM_append, lower, Option.bind_eq_bind,
    Option.bind_some, upper]
  exact ends

end Reader

end Regex

namespace Pattern

open Regex Regex.Reader

def fieldForm : Form := .repetition (.except [.only tokenEnd, .only tagEnd]) 0 none

theorem reads_writtenField : Reads writtenField true [fieldForm] := fun _ _ => rfl

theorem reads_writtenTagEnd : Reads writtenTagEnd true [.literal tagEnd] := fun _ _ => rfl

theorem reads_writtenTokenEnd : Reads writtenTokenEnd true [.literal tokenEnd] := fun _ _ => rfl

def neverForm : Form := .except [.range '\x00' (Char.ofNat 0x10FFFF)]

theorem reads_writtenNever : Reads writtenNever true [neverForm] := fun _ _ => rfl

/-! ### Forms of patterns -/

def tagForms : TagCondition → List Form
  | .any => [fieldForm]
  | .exact tag => (fieldText tag).map .literal
  | .startsWith start => (fieldText start).map .literal ++ [fieldForm]

def headwordForms : Option String → List Form
  | none => [fieldForm]
  | some text => (fieldText text).map .literal

def tokenForms (t : TokenPattern) : List Form :=
  tagForms t.tag ++ [.literal tagEnd] ++ headwordForms t.headword ++ [.literal tokenEnd]

mutual

/-- The items that the pattern puts into the row that it stands in. -/
def forms : Pattern → List Form
  | .token t => [.group (.ofItems (tokenForms t))]
  | .sequence ps => formsAll ps
  | .anyOf [] => [neverForm]
  | .anyOf (p :: ps) => [.group (.ofBranches (.ofItems (forms p) :: branchForms ps))]
  | .optional p => [.repetition (.group (.ofItems (forms p))) 0 (some 1)]
  | .repeated p least most => [.repetition (.group (.ofItems (forms p))) least most]

def formsAll : List Pattern → List Form
  | [] => []
  | p :: ps => forms p ++ formsAll ps

def branchForms : List Pattern → List Form
  | [] => []
  | p :: ps => .ofItems (forms p) :: branchForms ps

end

def form (mode : MatchMode) (p : Pattern) : Form :=
  .ofItems ([.textStart, .group (.ofItems p.forms)] ++
    match mode with
    | .full => [.textEnd]
    | .leading => [])

theorem reads_writtenTag (condition : TagCondition) :
    Reads (writtenTag condition) true (tagForms condition) := by
  cases condition with
  | any => exact reads_writtenField
  | exact tag => exact reads_escape _
  | startsWith start => exact (reads_escape _).append reads_writtenField

theorem reads_writtenHeadword (condition : Option String) :
    Reads (writtenHeadword condition) true (headwordForms condition) := by
  cases condition with
  | none => exact reads_writtenField
  | some text => exact reads_escape _

theorem reads_writtenToken (t : TokenPattern) :
    Reads (writtenToken t) true [.group (.ofItems (tokenForms t))] :=
  ((((reads_writtenTag t.tag).append reads_writtenTagEnd).append
    (reads_writtenHeadword t.headword)).append reads_writtenTokenEnd).group

theorem branchForms_eq (ps : List Pattern) :
    branchForms ps = (ps.map forms).map Form.ofItems := by
  induction ps with
  | nil => rfl
  | cons p ps ih => rw [branchForms, ih, List.map_cons, List.map_cons]

mutual

theorem reads_written : ∀ p : Pattern, Reads p.written p.isBounded p.forms
  | .token t => by
    rw [written, isBounded, forms]
    exact reads_writtenToken t
  | .sequence ps => by
    rw [written, isBounded, forms]
    exact reads_writtenAll ps
  | .anyOf [] => by
    rw [written, isBounded, forms]
    exact reads_writtenNever
  | .anyOf (p :: ps) => by
    -- all branches are read into the row of one group
    have inside (outer : List Row) :
        (p.written ++ writtenOthers ps).foldlM step (reading {} outer) =
        if p.isBounded && areBounded ps then
          some (reading ((Row.append {} p.forms).appendBranches (ps.map forms)) outer)
        else none := by
      rw [List.foldlM_append, reads_written p]
      cases p.isBounded with
      | false => rfl
      | true => exact foldlM_writtenOthers ps _ outer
    rw [written, isBounded, forms, areBounded, branchForms_eq, ← Row.form_branches]
    exact reads_writtenGroup inside
  | .optional p => by
    rw [written, isBounded, forms]
    have sign (row : Row) (outer : List Row) : ['?'].foldlM step (reading row outer) =
        (reading row outer).repeated 0 (some 1) := bind_pure _
    simpa using (reads_written p).group.repeated sign
  | .repeated p least most => by
    rw [written, isBounded, forms, Bool.and_comm]
    exact (reads_written p).group.repeated (foldlM_writtenBounds least most)

theorem reads_writtenAll : ∀ ps : List Pattern, Reads (writtenAll ps) (areBounded ps) (formsAll ps)
  | [] => reads_nil
  | p :: ps => by
    rw [writtenAll, areBounded, formsAll]
    exact (reads_written p).append (reads_writtenAll ps)

theorem foldlM_writtenOthers : ∀ (ps : List Pattern) (row : Row) (outer : List Row),
    (writtenOthers ps).foldlM step (reading row outer) =
      if areBounded ps then some (reading (row.appendBranches (ps.map forms)) outer) else none
  | [], _, _ => rfl
  | p :: ps, row, outer => by
    have bar : ('|' :: p.written).foldlM step (reading row outer) =
        p.written.foldlM step (reading row.bar outer) := rfl
    rw [writtenOthers, List.foldlM_append, bar, reads_written p, areBounded]
    cases p.isBounded with
    | false => rfl
    | true => exact foldlM_writtenOthers ps _ outer

end

/-- A pattern is written so that it is read as itself. The text cannot be read if a repetition in
the pattern, taken or not, asks for more copies than it allows. -/
theorem read?_source (mode : MatchMode) (p : Pattern) :
    Form.read? (p.source mode) = if p.isBounded then some (p.form mode) else none := by
  have start : Reads ['\\', 'A'] true [.textStart] := fun _ _ => rfl
  have stop : Reads ['\\', 'z'] true [.textEnd] := fun _ _ => rfl
  have body := start.append (reads_written p).group
  have whole : Reads (p.source mode) p.isBounded ([.textStart, .group (.ofItems p.forms)] ++
      match mode with
      | .full => [.textEnd]
      | .leading => []) := by
    cases mode with
    | full => simpa [source] using body.append stop
    | leading => simpa [source] using body.append reads_nil
  rw [Form.read?, whole {} []]
  cases p.isBounded with
  | false => rfl
  | true => exact congrArg some (Row.form_append _)

/-! ### What the forms match -/

theorem spells_fieldForm : fieldForm.Spells anyField.language := by
  rw [anyField_eq, Regex.language_repeated]
  refine Form.Spells.repetition (fun before w after => ?_) (by simp)
  rw [Form.Matches, Regex.mem_language_char]
  simp [SetMember.contains, CharSet.accepts]

/-- There is no character behind the last one. -/
theorem contains_range_all (c : Char) :
    (SetMember.range '\x00' (Char.ofNat 0x10FFFF)).contains c = true := by
  have last : c.toNat ≤ 0x10FFFF := by
    rcases c.valid with small | ⟨-, large⟩
    · exact Nat.le_of_lt (Nat.lt_trans small (by decide))
    · exact Nat.le_of_lt_succ large
  rw [SetMember.contains, Bool.and_eq_true]
  exact ⟨decide_eq_true (Nat.zero_le c.toNat), decide_eq_true last⟩

theorem spells_neverForm : neverForm.Spells 0 := by
  intro before w after
  rw [neverForm, Form.Matches]
  constructor
  · rintro ⟨c, unnamed, -⟩
    have outside := unnamed _ List.mem_cons_self
    rw [contains_range_all] at outside
    cases outside
  · exact fun member => absurd member (Language.notMem_zero w)

theorem spellAll_tagForms (condition : TagCondition) :
    Form.SpellAll (tagForms condition) ((tagRegex condition).map Regex.language).prod := by
  cases condition with
  | any => simpa [tagForms, tagRegex] using Form.spellAll_singleton spells_fieldForm
  | exact tag => exact Form.spellAll_literals _
  | startsWith start =>
    rw [tagForms, tagRegex, List.map_append, List.prod_append]
    have rest := Form.spellAll_singleton spells_fieldForm
    simpa using (Form.spellAll_literals (fieldText start)).append rest

theorem spellAll_headwordForms (condition : Option String) : Form.SpellAll
    (headwordForms condition) ((headwordRegex condition).map Regex.language).prod := by
  cases condition with
  | none => simpa [headwordForms, headwordRegex] using Form.spellAll_singleton spells_fieldForm
  | some text => exact Form.spellAll_literals _

theorem spellAll_tokenForms (t : TokenPattern) :
    Form.SpellAll (tokenForms t) (tokenRegex t).language := by
  rw [tokenRegex, Regex.language_inOrder]
  simp only [List.map_append, List.prod_append]
  exact (((spellAll_tagForms t.tag).append (Form.spellAll_literals [tagEnd])).append
    (spellAll_headwordForms t.headword)).append (Form.spellAll_literals [tokenEnd])

mutual

theorem spellAll_forms : ∀ p : Pattern, p.isBounded = true → Form.SpellAll p.forms p.regex.language
  | .token t, _ => by
    rw [forms, regex]
    exact Form.spellAll_singleton (spellAll_tokenForms t).ofItems.group
  | .sequence ps, bounded => by
    rw [forms, regex, Regex.language_inOrder]
    exact spellAll_formsAll ps (by simpa only [isBounded] using bounded)
  | .anyOf [], _ => by
    rw [forms, regex, Regex.language_oneOf]
    exact Form.spellAll_singleton spells_neverForm
  | .anyOf (p :: ps), bounded => by
    simp only [isBounded, areBounded, Bool.and_eq_true] at bounded
    rw [forms, regex, Regex.language_oneOf]
    have branches := (spellAll_forms p bounded.1).ofItems.or (spellSome_branchForms ps bounded.2)
    exact Form.spellAll_singleton branches.ofBranches.group
  | .optional p, bounded => by
    have inside : p.isBounded = true := by simpa only [isBounded] using bounded
    rw [forms, regex, Regex.language_repeating (isBounded_regex p inside)]
    exact Form.spellAll_singleton ((spellAll_forms p inside).ofItems.group.repetition (by simp))
  | .repeated p least most, bounded => by
    obtain ⟨inOrder, inside⟩ := isBounded_repeated.mp bounded
    rw [forms, regex, Regex.language_repeating (isBounded_regex p inside)]
    exact Form.spellAll_singleton ((spellAll_forms p inside).ofItems.group.repetition inOrder)

theorem spellAll_formsAll : ∀ ps : List Pattern, areBounded ps = true →
    Form.SpellAll (formsAll ps) ((regexes ps).map Regex.language).prod
  | [], _ => Form.spellAll_nil
  | p :: ps, bounded => by
    simp only [areBounded, Bool.and_eq_true] at bounded
    exact (spellAll_forms p bounded.1).append (spellAll_formsAll ps bounded.2)

theorem spellSome_branchForms : ∀ ps : List Pattern, areBounded ps = true →
    Form.SpellSome (branchForms ps) ((regexes ps).map Regex.language).sum
  | [], _ => Form.spellSome_nil
  | p :: ps, bounded => by
    simp only [areBounded, Bool.and_eq_true] at bounded
    exact (spellAll_forms p bounded.1).ofItems.or (spellSome_branchForms ps bounded.2)

end

/-- What the text of a pattern matches at the start of another text, is matched by the expression of
the pattern; and if all has to be covered, then nothing is left behind it. -/
theorem matches_form {p : Pattern} (bounded : p.isBounded = true) (mode : MatchMode)
    (w rest : List Char) : (p.form mode).Matches [] w rest ↔
      w ∈ p.regex.language ∧ (mode = .full → rest = []) := by
  have body (before after : List Char) :
      (Form.ofItems p.forms).Matches before w after ↔ w ∈ p.regex.language :=
    (spellAll_forms p bounded).ofItems before w after
  cases mode with
  | full =>
    rw [form, Form.matches_ofItems]
    simp [Form.MatchesAll, Form.Matches, body, and_comm]
  | leading =>
    rw [form, Form.matches_ofItems]
    simp [Form.MatchesAll, Form.Matches, body]

end Pattern

end PhraseGraph
