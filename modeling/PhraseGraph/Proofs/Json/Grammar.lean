import Mathlib.Data.List.Forall2
import PhraseGraph.Json.Basic
import PhraseGraph.Json.Scan
import PhraseGraph.Proofs.Numeral.Literal

/-!
# PhraseGraph.Proofs.Json.Grammar

The texts of JSON values.

A value has many texts: white space may stand between any two parts, each character of a string may
be escaped in several ways, and numbers have several literals. The members of an object stand in
their order, and a key may come again.

## Main statements

`Json.Spells`: the texts of a value. `Json.SpellsText` allows white space around them.
`Json.spells_object_write`: the compact text of an object is one of its texts.
-/

namespace PhraseGraph.Json

open Literal

/-! ### White space -/

/-- White space, or nothing. -/
def IsSpaces (cs : List Char) : Prop := ∀ c ∈ cs, isSpace c = true

instance (cs : List Char) : Decidable (IsSpaces cs) := List.decidableBAll _ cs

theorem isSpaces_nil : IsSpaces [] := by simp [IsSpaces]

theorem dropSpace_append {gap : List Char} (blank : IsSpaces gap) (cs : List Char) :
    dropSpace (gap ++ cs) = dropSpace cs :=
  List.dropWhile_append_of_pos blank

theorem dropSpace_of_isSpaces {gap : List Char} (blank : IsSpaces gap) : dropSpace gap = [] := by
  have dropped := dropSpace_append blank []
  rwa [List.append_nil] at dropped

theorem dropSpace_cons {c : Char} (solid : isSpace c = false) (cs : List Char) :
    dropSpace (c :: cs) = c :: cs := by
  simp [dropSpace, solid]

/-! ### Strings -/

/-- Four hexadecimal digits, and the number that they stand for. -/
inductive IsUnit : Nat → List Char → Prop
  | digits {a b c d : Char} {w x y z : Nat} (first : hexValue? a = some w)
    (second : hexValue? b = some x) (third : hexValue? c = some y) (fourth : hexValue? d = some z) :
    IsUnit (((w * 16 + x) * 16 + y) * 16 + z) [a, b, c, d]

/-- The texts of a character between quotes. -/
inductive SpellsChar : Char → List Char → Prop
  | plain {c : Char} (printable : 0x20 ≤ c.toNat) (quote : c ≠ '"') (backslash : c ≠ '\\') :
    SpellsChar c [c]
  | short {mark c : Char} (entry : (mark, c) ∈ shortEscapes) : SpellsChar c ['\\', mark]
  | unit {c : Char} {digits : List Char} (unit : IsUnit c.toNat digits) :
    SpellsChar c ('\\' :: 'u' :: digits)
  /-- The two halves of a character beyond the first 65536. -/
  | halves {c : Char} {n m : Nat} {high low : List Char} (first : n < 0x400) (second : m < 0x400)
    (highHalf : IsUnit (0xD800 + n) high) (lowHalf : IsUnit (0xDC00 + m) low)
    (value : c.toNat = 0x10000 + n * 0x400 + m) :
    SpellsChar c ('\\' :: 'u' :: (high ++ '\\' :: 'u' :: low))

/-- The texts of a string, its quotes included. -/
def SpellsString (s : String) (cs : List Char) : Prop :=
  ∃ parts, List.Forall₂ SpellsChar s.toList parts ∧ cs = '"' :: (parts.flatten ++ ['"'])

theorem hexValue?_digitChar : ∀ n < 16, hexValue? (Nat.digitChar n) = some n := by decide

theorem spellsChar_escape (c : Char) : SpellsChar c (escape c) := by
  unfold escape
  split_ifs with quote backslash h₃ h₄ h₅ h₆ h₇ control
  · subst quote
    exact .short (by decide)
  · subst backslash
    exact .short (by decide)
  · subst h₃
    exact .short (by decide)
  · subst h₄
    exact .short (by decide)
  · subst h₅
    exact .short (by decide)
  · subst h₆
    exact .short (by decide)
  · subst h₇
    exact .short (by decide)
  · have value : ((0 * 16 + 0) * 16 + c.toNat / 16) * 16 + c.toNat % 16 = c.toNat := by omega
    have zero : hexValue? '0' = some 0 := rfl
    have unit := IsUnit.digits zero zero (hexValue?_digitChar (c.toNat / 16) (by omega))
      (hexValue?_digitChar (c.toNat % 16) (by omega))
    rw [value] at unit
    exact .unit unit
  · exact .plain (by omega) quote backslash

theorem spellsString_writeString (s : String) : SpellsString s (writeString s) := by
  refine ⟨s.toList.map escape, ?_, ?_⟩
  · rw [List.forall₂_map_right_iff, List.forall₂_same]
    exact fun c _ => spellsChar_escape c
  · rw [writeString, List.flatMap_def, List.cons_append]

/-! ### Numbers -/

/-- Digits without a leading zero. -/
inductive IsWhole : List Char → Prop
  | zero : IsWhole ['0']
  | positive {c : Char} {cs : List Char} (leading : c ≠ '0') (digits : IsDigits (c :: cs)) :
    IsWhole (c :: cs)

inductive IsFraction : List Char → Prop
  | none : IsFraction []
  | some {digits : List Char} (count : IsDigits digits) : IsFraction ('.' :: digits)

/-- A number without a sign. -/
inductive IsMagnitude : List Char → Prop
  | parts {whole fraction power : List Char} (before : IsWhole whole)
    (behind : IsFraction fraction) (exponent : IsPower power) :
    IsMagnitude (whole ++ (fraction ++ power))

inductive IsNumber : List Char → Prop
  | positive {cs : List Char} (magnitude : IsMagnitude cs) : IsNumber cs
  | negative {cs : List Char} (magnitude : IsMagnitude cs) : IsNumber ('-' :: cs)

/-! ### Values -/

/-- What stands in front of an element or a member behind its white space. -/
def comma (first : Bool) : List Char := if first then [] else [',']

mutual

/-- The texts of a value. -/
def Spells : Json → List Char → Prop
  | .null, cs => cs = "null".toList
  | .bool b, cs => cs = (if b then "true" else "false").toList
  | .count n, cs => IsWhole cs ∧ digitsValue cs = n
  | .number x, cs => IsNumber cs ∧ Binary64.read? (String.ofList cs) = some x
  | .string s, cs => SpellsString s cs
  | .array es, cs => ∃ inner, SpellsElements es true inner ∧ cs = '[' :: inner
  | .object ms, cs => ∃ inner, SpellsMembers ms true inner ∧ cs = '\x7b' :: inner

/-- What follows the first bracket of a list, or else one of its elements. -/
def SpellsElements : List Json → Bool → List Char → Prop
  | [], _, cs => ∃ gap, IsSpaces gap ∧ cs = gap ++ [']']
  | e :: es, first, cs => ∃ gap gap' text rest, IsSpaces gap ∧ IsSpaces gap' ∧ Spells e text ∧
      SpellsElements es false rest ∧ cs = gap ++ (comma first ++ (gap' ++ (text ++ rest)))

/-- What follows the first bracket of an object, or else one of its members. -/
def SpellsMembers : List (String × Json) → Bool → List Char → Prop
  | [], _, cs => ∃ gap, IsSpaces gap ∧ cs = gap ++ ['\x7d']
  | (key, v) :: ms, first, cs => ∃ gap gap₁ keyText gap₂ gap₃ text rest,
      (IsSpaces gap ∧ IsSpaces gap₁ ∧ IsSpaces gap₂ ∧ IsSpaces gap₃) ∧
      SpellsString key keyText ∧ Spells v text ∧ SpellsMembers ms false rest ∧
      cs = gap ++ (comma first ++ (gap₁ ++ (keyText ++ (gap₂ ++ ':' :: (gap₃ ++ (text ++ rest))))))

end

/-- The texts of a value, with white space around them. -/
def SpellsText (v : Json) (text : String) : Prop :=
  ∃ before inner after, IsSpaces before ∧ IsSpaces after ∧ Spells v inner ∧
    text.toList = before ++ (inner ++ after)

/-! ### Compact texts -/

theorem spellsMembers_cons (key : String) (first : Bool) {v : Json} {ms : List (String × Json)}
    {text rest : List Char} (value : Spells v text) (later : SpellsMembers ms false rest) :
    SpellsMembers ((key, v) :: ms) first
      (comma first ++ (writeString key ++ ':' :: (text ++ rest))) := by
  rw [SpellsMembers]
  exact ⟨[], [], writeString key, [], [], text, rest,
    ⟨isSpaces_nil, isSpaces_nil, isSpaces_nil, isSpaces_nil⟩, spellsString_writeString key, value,
    later, rfl⟩

theorem spells_object {ms : List (String × Json)} {inner : List Char}
    (members : SpellsMembers ms true inner) : Spells (.object ms) ('\x7b' :: inner) := by
  rw [Spells]
  exact ⟨inner, members, rfl⟩

theorem spellsMembers_writeMembers {ms : List (String × Json)}
    (values : ∀ m ∈ ms, Spells m.2 (write m.2)) :
    SpellsMembers ms false (writeMembers ms ++ ['\x7d']) := by
  induction ms with
  | nil =>
    rw [SpellsMembers]
    exact ⟨[], isSpaces_nil, rfl⟩
  | cons m ms ih =>
    obtain ⟨key, v⟩ := m
    obtain ⟨value, later⟩ := List.forall_mem_cons.mp values
    have spelled := spellsMembers_cons key false value (ih later)
    rw [writeMembers]
    simpa [comma] using spelled

/-- The compact text of an object is one of its texts, if those of its members are. -/
theorem spells_object_write {ms : List (String × Json)}
    (values : ∀ m ∈ ms, Spells m.2 (write m.2)) : Spells (.object ms) (write (.object ms)) := by
  cases ms with
  | nil =>
    rw [write]
    apply spells_object
    rw [SpellsMembers]
    exact ⟨[], isSpaces_nil, rfl⟩
  | cons m ms =>
    obtain ⟨key, v⟩ := m
    obtain ⟨value, later⟩ := List.forall_mem_cons.mp values
    have spelled := spellsMembers_cons key true value (spellsMembers_writeMembers later)
    rw [write]
    simpa [comma] using spells_object spelled

theorem spells_string_write (s : String) : Spells (.string s) (write (.string s)) := by
  rw [Spells, write]
  exact spellsString_writeString s

theorem spells_strings_write {ms : List (String × Json)} (strings : ∀ m ∈ ms, ∃ s, m.2 = .string s) :
    Spells (.object ms) (write (.object ms)) := by
  apply spells_object_write
  intro m member
  obtain ⟨s, text⟩ := strings m member
  exact text ▸ spells_string_write s

theorem spellsText_render {v : Json} (spelled : Spells v (write v)) : SpellsText v v.render :=
  ⟨[], write v, [], isSpaces_nil, isSpaces_nil, spelled, by simp [render]⟩

/-! ### Ends -/

/-- What may stand behind an element or a member, and so ends a number. -/
def IsEnd (c : Char) : Prop := isSpace c = true ∨ c = ',' ∨ c = ']' ∨ c = '\x7d'

instance (c : Char) : Decidable (IsEnd c) := inferInstanceAs (Decidable (_ ∨ _))

/-- Nothing goes on with a number. -/
def Ends (cs : List Char) : Prop := ∀ c ∈ cs.head?, IsEnd c

theorem ends_append {gap cs : List Char} {c : Char} (blank : IsSpaces gap) (stop : IsEnd c) :
    Ends (gap ++ c :: cs) := by
  cases gap with
  | nil =>
    rintro _ ⟨⟩
    exact stop
  | cons d gap =>
    rintro _ ⟨⟩
    exact Or.inl (blank d List.mem_cons_self)

/-- What follows an element of a list ends it. -/
theorem SpellsElements.ends {es : List Json} {text : List Char}
    (spelled : SpellsElements es false text) :
    0 < text.length ∧ ∀ rest, Ends (text ++ rest) := by
  cases es with
  | nil =>
    rw [SpellsElements] at spelled
    obtain ⟨gap, blank, rfl⟩ := spelled
    exact ⟨List.length_pos_of_ne_nil (by simp),
      fun rest => List.append_assoc _ _ rest ▸ ends_append blank (by decide)⟩
  | cons e es =>
    rw [SpellsElements] at spelled
    obtain ⟨gap, gap', text, tail, blank, -, -, -, rfl⟩ := spelled
    exact ⟨List.length_pos_of_ne_nil (by simp [comma]),
      fun rest => List.append_assoc _ _ rest ▸ ends_append blank (by decide)⟩

/-- What follows a member of an object ends it. -/
theorem SpellsMembers.ends {ms : List (String × Json)} {text : List Char}
    (spelled : SpellsMembers ms false text) :
    0 < text.length ∧ ∀ rest, Ends (text ++ rest) := by
  cases ms with
  | nil =>
    rw [SpellsMembers] at spelled
    obtain ⟨gap, blank, rfl⟩ := spelled
    exact ⟨List.length_pos_of_ne_nil (by simp),
      fun rest => List.append_assoc _ _ rest ▸ ends_append blank (by decide)⟩
  | cons m ms =>
    obtain ⟨key, v⟩ := m
    rw [SpellsMembers] at spelled
    obtain ⟨gap, gap₁, keyText, gap₂, gap₃, text, tail, blanks, -, -, -, rfl⟩ := spelled
    exact ⟨List.length_pos_of_ne_nil (by simp [comma]),
      fun rest => List.append_assoc _ _ rest ▸ ends_append blanks.1 (by decide)⟩

/-! ### Starts -/

/-- Where a value starts there is neither white space nor the end of a list or an object. -/
def IsStart (c : Char) : Prop := isSpace c = false ∧ c ≠ ']' ∧ c ≠ '\x7d'

instance (c : Char) : Decidable (IsStart c) := inferInstanceAs (Decidable (_ ∧ _))

/-- The text has a first character, with which a value may start. -/
def Starts (cs : List Char) : Prop := ∃ c rest, cs = c :: rest ∧ IsStart c

theorem Starts.append {cs : List Char} (start : Starts cs) (rest : List Char) :
    Starts (cs ++ rest) := by
  obtain ⟨c, cs, rfl, start⟩ := start
  exact ⟨c, cs ++ rest, rfl, start⟩

theorem Starts.length_pos {cs : List Char} (start : Starts cs) : 0 < cs.length := by
  obtain ⟨c, cs, rfl, -⟩ := start
  exact Nat.succ_pos _

theorem starts_cons {c : Char} {cs : List Char} (start : IsStart c) : Starts (c :: cs) :=
  ⟨c, cs, rfl, start⟩

theorem isStart_of_isDigit {c : Char} (digit : c.isDigit = true) : IsStart c := by
  refine ⟨?_, ?_, ?_⟩
  · by_contra space
    simp only [isSpace, Bool.not_eq_false, Bool.or_eq_true, beq_iff_eq] at space
    rcases space with ((rfl | rfl) | rfl) | rfl <;> exact absurd digit (by decide)
  · rintro rfl
    exact absurd digit (by decide)
  · rintro rfl
    exact absurd digit (by decide)

theorem IsWhole.head {cs : List Char} (whole : IsWhole cs) :
    ∃ c rest, cs = c :: rest ∧ c.isDigit = true := by
  cases whole with
  | zero => exact ⟨'0', [], rfl, rfl⟩
  | positive _ digits => exact ⟨_, _, rfl, digits.all _ List.mem_cons_self⟩

theorem IsMagnitude.head {cs : List Char} (magnitude : IsMagnitude cs) :
    ∃ c rest, cs = c :: rest ∧ c.isDigit = true := by
  obtain ⟨before, -, -⟩ := magnitude
  obtain ⟨c, rest, rfl, digit⟩ := before.head
  exact ⟨c, _, rfl, digit⟩

theorem IsNumber.head {cs : List Char} (number : IsNumber cs) :
    ∃ c rest, cs = c :: rest ∧ (c = '-' ∨ c.isDigit = true) := by
  cases number with
  | positive magnitude =>
    obtain ⟨c, rest, rfl, digit⟩ := magnitude.head
    exact ⟨c, rest, rfl, Or.inr digit⟩
  | negative => exact ⟨_, _, rfl, Or.inl rfl⟩

theorem IsWhole.isNumber {cs : List Char} (whole : IsWhole cs) : IsNumber cs := by
  have magnitude := IsMagnitude.parts whole .none .none
  rw [List.append_nil, List.append_nil] at magnitude
  exact .positive magnitude

theorem SpellsString.starts {s : String} {text : List Char} (spelled : SpellsString s text) :
    Starts text := by
  obtain ⟨parts, -, rfl⟩ := spelled
  exact starts_cons (by decide)

/-- The first character of the texts of a value. -/
def Opens : Json → Char → Prop
  | .null, c => c = 'n'
  | .bool b, c => c = if b then 't' else 'f'
  | .count _, c => c = '-' ∨ c.isDigit = true
  | .number _, c => c = '-' ∨ c.isDigit = true
  | .string _, c => c = '"'
  | .array _, c => c = '['
  | .object _, c => c = '\x7b'

theorem Spells.opens {v : Json} {text : List Char} (spelled : Spells v text) :
    ∃ c rest, text = c :: rest ∧ Opens v c := by
  cases v with
  | null =>
    rw [Spells] at spelled
    exact ⟨_, _, spelled, rfl⟩
  | bool b =>
    rw [Spells] at spelled
    subst spelled
    cases b <;> exact ⟨_, _, rfl, rfl⟩
  | count n =>
    rw [Spells] at spelled
    exact spelled.1.isNumber.head
  | number x =>
    rw [Spells] at spelled
    exact spelled.1.head
  | string s =>
    rw [Spells] at spelled
    obtain ⟨parts, -, rfl⟩ := spelled
    exact ⟨_, _, rfl, rfl⟩
  | array es =>
    rw [Spells] at spelled
    obtain ⟨inner, -, rfl⟩ := spelled
    exact ⟨_, _, rfl, rfl⟩
  | object ms =>
    rw [Spells] at spelled
    obtain ⟨inner, -, rfl⟩ := spelled
    exact ⟨_, _, rfl, rfl⟩

theorem Opens.isStart {v : Json} {c : Char} (opens : Opens v c) : IsStart c := by
  have number (c : Char) (opens : c = '-' ∨ c.isDigit = true) : IsStart c := by
    rcases opens with rfl | digit
    · decide
    · exact isStart_of_isDigit digit
  cases v with
  | bool b => cases b <;> exact opens ▸ (by decide)
  | count n => exact number c opens
  | number x => exact number c opens
  | _ => exact opens ▸ (by decide)

theorem Spells.starts {v : Json} {text : List Char} (spelled : Spells v text) : Starts text := by
  obtain ⟨c, rest, rfl, opens⟩ := spelled.opens
  exact starts_cons opens.isStart

/-- What is left of an element or a member behind the white space in front of it. -/
theorem dropSpace_part {gap gap' text : List Char} {first : Bool} (blank : IsSpaces gap)
    (blank' : IsSpaces gap') (starts : Starts text) :
    dropSpace (gap ++ (comma first ++ (gap' ++ text))) =
      if first then text else ',' :: (gap' ++ text) := by
  obtain ⟨c, rest, rfl, start⟩ := starts
  rw [dropSpace_append blank]
  cases first with
  | true => exact (dropSpace_append blank' _).trans (dropSpace_cons start.1 rest)
  | false => exact dropSpace_cons (by decide) _

end PhraseGraph.Json
