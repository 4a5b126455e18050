import PhraseGraph.Proofs.Json.Strings

/-!
# PhraseGraph.Proofs.Json.Skipping

Values are read over to their end, whatever they are.

A number is the only value that does not tell by itself where it ends, so what follows a value
must not go on with one.

## Main statements

`Json.skipValue_append`: what is left of a spelled value and more is the rest.
-/

namespace PhraseGraph.Json

open Literal

variable {atEnd : Fault} {cs ds rest : List Char}

/-! ### Numbers -/

theorem Ends.head (ends : Ends cs) :
    ∀ c ∈ cs.head?, c.isDigit = false ∧ c ≠ '.' ∧ c ≠ 'e' ∧ c ≠ 'E' := by
  intro c head
  have marks : c = ' ' ∨ c = '\t' ∨ c = '\n' ∨ c = '\r' ∨ c = ',' ∨ c = ']' ∨ c = '\x7d' := by
    have stop := ends c head
    simp only [IsEnd, isSpace, Bool.or_eq_true, beq_iff_eq] at stop
    tauto
  rcases marks with rfl | rfl | rfl | rfl | rfl | rfl | rfl <;> decide

theorem skipDigits_append (digits : IsDigits ds) (stop : ∀ c ∈ cs.head?, c.isDigit = false) :
    skipDigits atEnd (ds ++ cs) = .ok cs := by
  obtain ⟨ne_nil, all⟩ := digits
  obtain ⟨c, ds, rfl⟩ := List.exists_cons_of_ne_nil ne_nil
  obtain ⟨first, later⟩ := List.forall_mem_cons.mp all
  rw [List.cons_append, skipDigits, if_pos first, (span_digits later stop).2]

theorem skipExponent_mark {mark : Char} {sign : List Char} (marks : mark = 'e' ∨ mark = 'E')
    (signed : IsSign sign) (unsigned : NoSign cs) :
    skipExponent atEnd (mark :: (sign ++ cs)) = skipDigits atEnd cs := by
  have marked : (mark == 'e' || mark == 'E') = true := by simpa using marks
  cases signed with
  | plus => simp [skipExponent, marked]
  | minus => simp [skipExponent, marked]
  | none =>
    rw [List.nil_append, skipExponent, if_pos marked]
    · rintro _ rfl
      exact (unsigned '+' rfl).1 rfl
    · rintro _ rfl
      exact (unsigned '-' rfl).2 rfl

theorem skipExponent_append (power : IsPower ds) (ends : Ends cs) :
    skipExponent atEnd (ds ++ cs) = .ok cs := by
  cases power with
  | none =>
    cases cs with
    | nil => rfl
    | cons c cs =>
      obtain ⟨-, -, small, capital⟩ := ends.head c rfl
      simp [skipExponent, small, capital]
  | @some mark sign digits marks signed count =>
    have unsigned : NoSign (digits ++ cs) := (IsMantissa.whole count).noSign
    rw [List.cons_append, List.append_assoc, skipExponent_mark marks signed unsigned]
    exact skipDigits_append count fun c head => (ends.head c head).1

/-- A power of ten and what follows it do not go on with digits, nor with a point. -/
theorem head_power_append {power : List Char} (exponent : IsPower power) (ends : Ends cs) :
    ∀ c ∈ (power ++ cs).head?, c.isDigit = false ∧ c ≠ '.' := by
  cases power with
  -- without a power of ten the number ends here
  | nil => exact fun c head => ⟨(ends.head c head).1, (ends.head c head).2.1⟩
  | cons => exact fun c head => exponent.head c head

theorem skipFraction_append {fraction power : List Char} (behind : IsFraction fraction)
    (exponent : IsPower power) (ends : Ends cs) :
    skipFraction atEnd (fraction ++ (power ++ cs)) = .ok cs := by
  have head := head_power_append exponent ends
  have left : skipExponent atEnd (power ++ cs) = .ok cs := skipExponent_append exponent ends
  cases behind with
  | none =>
    rw [List.nil_append, skipFraction, left]
    rintro rest shape
    exact (head '.' (by rw [shape]; rfl)).2 rfl
  | some count =>
    rw [List.cons_append, skipFraction, skipDigits_append count fun c h => (head c h).1]
    exact left

theorem skipUnsigned_whole (whole : IsWhole ds) (stop : ∀ c ∈ cs.head?, c.isDigit = false) :
    skipUnsigned atEnd (ds ++ cs) = skipFraction atEnd cs := by
  cases whole with
  | zero =>
    cases cs with
    | nil => rfl
    | cons c cs => simp [skipUnsigned, stop c rfl]
  | @positive c ds leading digits =>
    obtain ⟨first, later⟩ := List.forall_mem_cons.mp digits.all
    rw [List.cons_append, skipUnsigned, if_pos first, (span_digits later stop).2]
    exact leading

theorem skipUnsigned_append (magnitude : IsMagnitude ds) (ends : Ends cs) :
    skipUnsigned atEnd (ds ++ cs) = .ok cs := by
  obtain ⟨before, behind, exponent⟩ := magnitude
  rw [List.append_assoc, List.append_assoc, skipUnsigned_whole before]
  · exact skipFraction_append behind exponent ends
  · cases behind with
    | none => exact fun c head => (head_power_append exponent ends c head).1
    | some =>
      rintro _ ⟨⟩
      decide

theorem skipNumber_append (number : IsNumber ds) (ends : Ends cs) :
    skipNumber atEnd (ds ++ cs) = .ok cs := by
  cases number with
  | positive magnitude =>
    rw [skipNumber, skipUnsigned_append magnitude ends]
    -- the text does not start with a minus sign
    intro rest shape
    obtain ⟨c, ds, rfl, digit⟩ := magnitude.head
    rw [(List.cons.inj shape).1] at digit
    exact absurd digit (by decide)
  | negative magnitude => exact skipUnsigned_append magnitude ends

/-! ### Values -/

theorem expect_append (word cs : List Char) : expect word (word ++ cs) = .ok cs := by
  induction word with
  | nil => rfl
  | cons c word ih => rw [List.cons_append, expect, if_pos rfl, ih]

theorem skipWithin_spaces {gap : List Char} {fuel : Nat} (blank : IsSpaces gap) :
    skipWithin fuel (gap ++ cs) = skipWithin fuel cs := by
  cases fuel with
  | zero => rfl
  | succ fuel => rw [skipWithin, skipWithin, dropSpace_append blank]

theorem skipWithin_number {fuel : Nat} (number : IsNumber ds) (ends : Ends rest) :
    skipWithin (fuel + 1) (ds ++ rest) = .ok rest := by
  have left : skipNumber .malformed (ds ++ rest) = .ok rest := skipNumber_append number ends
  obtain ⟨c, ds, rfl, mark⟩ := number.head
  -- the other values start differently
  have marks : isSpace c = false ∧
      c ≠ 'n' ∧ c ≠ 't' ∧ c ≠ 'f' ∧ c ≠ '"' ∧ c ≠ '[' ∧ c ≠ '\x7b' := by
    rcases mark with rfl | digit
    · decide
    · refine ⟨(isStart_of_isDigit digit).1, ?_, ?_, ?_, ?_, ?_, ?_⟩ <;>
        rintro rfl <;> exact absurd digit (by decide)
  obtain ⟨solid, _, _, _, _, _, _⟩ := marks
  have last : skipWithin (fuel + 1) (c :: (ds ++ rest)) =
      if c = '-' ∨ c.isDigit then skipNumber .malformed (c :: (ds ++ rest))
      else .error .malformed := by
    rw [skipWithin, dropSpace_cons solid]
    split <;> simp_all
  rw [List.cons_append, last, if_pos mark]
  exact left

/-- A step of a list: an element, and then the others. -/
theorem skipElements_part {gap gap' text : List Char} {first : Bool} {fuel : Nat}
    (blank : IsSpaces gap) (blank' : IsSpaces gap') (starts : Starts text) :
    skipElements (fuel + 1) first (gap ++ (comma first ++ (gap' ++ text))) =
      skipWithin fuel text >>= skipElements fuel false := by
  rw [skipElements, dropSpace_part blank blank' starts]
  obtain ⟨c, rest, rfl, -, notLast, -⟩ := starts
  cases first with
  | true => simp
  | false => simp [skipWithin_spaces blank']

theorem skipMember_spaces {gap : List Char} {fuel : Nat} (blank : IsSpaces gap) :
    skipMember fuel (gap ++ cs) = skipMember fuel cs := by
  cases fuel with
  | zero => rfl
  | succ fuel => rw [skipMember, skipMember, expectMark, expectMark, dropSpace_append blank]

/-- A step of an object: a member, and then the others. -/
theorem skipMembers_part {gap gap' text : List Char} {first : Bool} {fuel : Nat}
    (blank : IsSpaces gap) (blank' : IsSpaces gap') (starts : Starts text) :
    skipMembers (fuel + 1) first (gap ++ (comma first ++ (gap' ++ text))) =
      skipMember fuel text >>= skipMembers fuel false := by
  rw [skipMembers, dropSpace_part blank blank' starts]
  obtain ⟨c, rest, rfl, -, -, notLast⟩ := starts
  cases first with
  | true => simp
  | false => simp [skipMember_spaces blank']

theorem expectMark_append {gap : List Char} {mark : Char} (blank : IsSpaces gap)
    (solid : isSpace mark = false) (cs : List Char) :
    expectMark mark (gap ++ mark :: cs) = .ok cs := by
  rw [expectMark, dropSpace_append blank, dropSpace_cons solid]
  exact if_pos rfl

/-- A member is read over if its value is. -/
theorem skipMember_append {key : String} {keyText gap gap' : List Char} {fuel : Nat}
    (spelled : SpellsString key keyText) (blank : IsSpaces gap) (blank' : IsSpaces gap') :
    skipMember (fuel + 1) (keyText ++ (gap ++ ':' :: (gap' ++ cs))) = skipWithin fuel cs := by
  obtain ⟨body, rfl, -, skipped⟩ := spelled.exists_body
  have quote : expectMark '"' ('"' :: (body ++ (gap ++ ':' :: (gap' ++ cs)))) =
      .ok (body ++ (gap ++ ':' :: (gap' ++ cs))) := expectMark_append isSpaces_nil (by decide) _
  have colon : expectMark ':' (gap ++ ':' :: (gap' ++ cs)) = .ok (gap' ++ cs) :=
    expectMark_append blank (by decide) _
  rw [skipMember, List.cons_append, quote]
  simp only [bind, Except.bind, skipped, colon]
  exact skipWithin_spaces blank'

/-! By recursion on the value. Every part of a text is shorter than the text by a bracket or a comma at
least, and a step for a member and another for its value are paid for by its key and its colon. -/

mutual

theorem skipWithin_append : (v : Json) → ∀ {text rest : List Char} {fuel : Nat}, Spells v text →
    Ends rest → 2 * text.length ≤ fuel → skipWithin fuel (text ++ rest) = .ok rest
  | v, text, rest, fuel, spelled, ends, enough => by
    have some := spelled.starts.length_pos
    obtain ⟨fuel, rfl⟩ : ∃ n, fuel = n + 1 := ⟨fuel - 1, by omega⟩
    cases v with
    | null =>
      rw [Spells] at spelled
      subst spelled
      exact expect_append "ull".toList rest
    | bool b =>
      rw [Spells] at spelled
      subst spelled
      cases b with
      | true => exact expect_append "rue".toList rest
      | false => exact expect_append "alse".toList rest
    | count n =>
      rw [Spells] at spelled
      exact skipWithin_number spelled.1.isNumber ends
    | number x =>
      rw [Spells] at spelled
      exact skipWithin_number spelled.1 ends
    | string s =>
      rw [Spells] at spelled
      obtain ⟨body, rfl, -, skipped⟩ := spelled.exists_body
      rw [List.cons_append, skipWithin, dropSpace_cons (by decide)]
      exact skipped rest
    | array es =>
      rw [Spells] at spelled
      obtain ⟨inner, elements, rfl⟩ := spelled
      rw [List.length_cons] at enough
      rw [List.cons_append, skipWithin, dropSpace_cons (by decide)]
      exact skipElements_append es elements (by omega)
    | object ms =>
      rw [Spells] at spelled
      obtain ⟨inner, members, rfl⟩ := spelled
      rw [List.length_cons] at enough
      rw [List.cons_append, skipWithin, dropSpace_cons (by decide)]
      exact skipMembers_append ms members (by omega)

theorem skipElements_append : (es : List Json) → ∀ {first : Bool} {text rest : List Char}
    {fuel : Nat}, SpellsElements es first text → 2 * text.length ≤ fuel →
    skipElements fuel first (text ++ rest) = .ok rest
  | [], first, text, rest, fuel, spelled, enough => by
    rw [SpellsElements] at spelled
    obtain ⟨gap, blank, rfl⟩ := spelled
    simp only [List.length_append, List.length_singleton] at enough
    obtain ⟨fuel, rfl⟩ : ∃ n, fuel = n + 1 := ⟨fuel - 1, by omega⟩
    rw [List.append_assoc, skipElements, dropSpace_append blank]
    rfl
  | e :: es, first, text, rest, fuel, spelled, enough => by
    rw [SpellsElements] at spelled
    obtain ⟨gap, gap', text, tail, blank, blank', here, later, rfl⟩ := spelled
    obtain ⟨some, ends⟩ := later.ends
    have some' := here.starts.length_pos
    simp only [List.length_append] at enough
    obtain ⟨fuel, rfl⟩ : ∃ n, fuel = n + 1 := ⟨fuel - 1, by omega⟩
    have skipped : skipWithin fuel (text ++ (tail ++ rest)) = .ok (tail ++ rest) :=
      skipWithin_append e here (ends rest) (by omega)
    simp only [List.append_assoc]
    rw [skipElements_part blank blank' (here.starts.append _), skipped]
    exact skipElements_append es later (by omega)

theorem skipMembers_append : (ms : List (String × Json)) → ∀ {first : Bool}
    {text rest : List Char} {fuel : Nat}, SpellsMembers ms first text → 2 * text.length ≤ fuel →
    skipMembers fuel first (text ++ rest) = .ok rest
  | [], first, text, rest, fuel, spelled, enough => by
    rw [SpellsMembers] at spelled
    obtain ⟨gap, blank, rfl⟩ := spelled
    simp only [List.length_append, List.length_singleton] at enough
    obtain ⟨fuel, rfl⟩ : ∃ n, fuel = n + 1 := ⟨fuel - 1, by omega⟩
    rw [List.append_assoc, skipMembers, dropSpace_append blank]
    rfl
  | (key, v) :: ms, first, text, rest, fuel, spelled, enough => by
    rw [SpellsMembers] at spelled
    obtain ⟨gap, gap₁, keyText, gap₂, gap₃, text, tail, ⟨blank, blank₁, blank₂, blank₃⟩, name, here,
      later, rfl⟩ := spelled
    obtain ⟨some, ends⟩ := later.ends
    simp only [List.length_append, List.length_cons] at enough
    -- a step for the member, and one for what is in it
    obtain ⟨fuel, rfl⟩ : ∃ n, fuel = n + 2 := ⟨fuel - 2, by omega⟩
    have skipped : skipWithin fuel (text ++ (tail ++ rest)) = .ok (tail ++ rest) :=
      skipWithin_append v here (ends rest) (by omega)
    simp only [List.append_assoc, List.cons_append]
    rw [skipMembers_part blank blank₁ (name.starts.append _), skipMember_append name blank₂ blank₃,
      skipped]
    exact skipMembers_append ms later (by omega)

end

/-- A value is read over to its end, in whichever way it is spelled. -/
theorem skipValue_append {v : Json} {gap text : List Char} (blank : IsSpaces gap)
    (spelled : Spells v text) (ends : Ends rest) :
    skipValue (gap ++ (text ++ rest)) = .ok rest := by
  rw [skipValue, skipWithin_spaces blank]
  apply skipWithin_append v spelled ends
  simp only [List.length_append]
  omega

end PhraseGraph.Json
