import Mathlib.Data.List.TakeWhile
import PhraseGraph.Numeral.Literal

/-!
# PhraseGraph.Proofs.Numeral.Literal

The grammar of decimal literals.

## Main statements

`Literal.isSome_read?_iff`: what is read is what the grammar allows.
`Literal.IsNumeral.space_notMem`: there is no space in a literal.
-/

namespace PhraseGraph.Literal

variable {cs ds : List Char}

/-! ### The grammar -/

/-- Digits, at least one. -/
structure IsDigits (cs : List Char) : Prop where
  ne_nil : cs ≠ []
  all : ∀ c ∈ cs, c.isDigit = true

/-- A sign, or nothing. -/
inductive IsSign : List Char → Prop
  | none : IsSign []
  | plus : IsSign ['+']
  | minus : IsSign ['-']

/-- A power of ten, or nothing. -/
inductive IsPower : List Char → Prop
  | none : IsPower []
  | some {mark : Char} {sign digits : List Char} (marks : mark = 'e' ∨ mark = 'E')
    (signed : IsSign sign) (count : IsDigits digits) : IsPower (mark :: (sign ++ digits))

/-- Digits with at most one point, before, behind or among them. -/
inductive IsMantissa : List Char → Prop
  | whole {digits : List Char} (count : IsDigits digits) : IsMantissa digits
  | pointed {whole fraction : List Char} (count : IsDigits (whole ++ fraction)) :
    IsMantissa (whole ++ '.' :: fraction)

/-- The words for infinity and for what is not a number, in capitals or not. -/
def IsValueWord (cs : List Char) : Prop :=
  String.ofList (cs.map Char.toLower) ∈ ["inf", "infinity", "nan"]

/-- What follows the sign of a literal. -/
inductive IsUnsigned : List Char → Prop
  | decimal {mantissa power : List Char} (digits : IsMantissa mantissa) (exponent : IsPower power) :
    IsUnsigned (mantissa ++ power)
  | word {cs : List Char} (word : IsValueWord cs) : IsUnsigned cs

inductive IsNumeral : List Char → Prop
  | signed {sign body : List Char} (signed : IsSign sign) (unsigned : IsUnsigned body) :
    IsNumeral (sign ++ body)

/-! ### Signs -/

/-- The text does not start with a sign. -/
def NoSign (cs : List Char) : Prop := ∀ c ∈ cs.head?, c ≠ '+' ∧ c ≠ '-'

theorem splitSign_of_noSign (unsigned : NoSign cs) : splitSign cs = (false, cs) := by
  cases cs with
  | nil => rfl
  | cons c cs =>
    obtain ⟨plus, minus⟩ := unsigned c rfl
    unfold splitSign
    split
    · next shape => exact absurd (List.cons.inj shape).1 plus
    · next shape => exact absurd (List.cons.inj shape).1 minus
    · rfl

theorem splitSign_append (signed : IsSign ds) (unsigned : NoSign cs) :
    (splitSign (ds ++ cs)).2 = cs := by
  cases signed with
  | none => rw [List.nil_append, splitSign_of_noSign unsigned]
  | plus => rfl
  | minus => rfl

theorem exists_sign (cs : List Char) : ∃ sign, IsSign sign ∧ cs = sign ++ (splitSign cs).2 := by
  unfold splitSign
  split
  · exact ⟨['+'], .plus, rfl⟩
  · exact ⟨['-'], .minus, rfl⟩
  · exact ⟨[], .none, rfl⟩

theorem noSign_of_isDigit (digit : ∀ c ∈ cs.head?, c.isDigit = true) : NoSign cs := by
  intro c head
  constructor <;> rintro rfl <;> exact absurd (digit _ head) (by decide)

/-! ### Powers of ten -/

theorem isDigits_iff : IsDigits cs ↔ (!cs.isEmpty && cs.all Char.isDigit) = true := by
  rw [Bool.and_eq_true, List.all_eq_true]
  constructor
  · rintro ⟨ne_nil, all⟩
    exact ⟨by simpa using ne_nil, all⟩
  · rintro ⟨nonempty, all⟩
    exact ⟨by simpa using nonempty, all⟩

theorem isSome_readExponent?_iff : (readExponent? cs).isSome = true ↔ IsPower cs := by
  cases cs with
  | nil => exact iff_of_true rfl .none
  | cons mark cs =>
    have read : (readExponent? (mark :: cs)).isSome = true ↔
        (mark = 'e' ∨ mark = 'E') ∧ IsDigits (splitSign cs).2 := by
      rw [isDigits_iff, readExponent?]
      simp only [Bool.and_assoc]
      split
      · next marked => simpa using marked
      · next unmarked => simpa using unmarked
    rw [read]
    constructor
    · rintro ⟨marks, digits⟩
      obtain ⟨sign, signed, shape⟩ := exists_sign cs
      rw [shape]
      exact .some marks signed digits
    · rintro ⟨⟩
      next signed digits marks =>
        have unsigned : NoSign _ :=
          noSign_of_isDigit fun c head => digits.all c (List.mem_of_mem_head? head)
        rw [splitSign_append signed unsigned]
        exact ⟨marks, digits⟩

/-- A power of ten starts with a letter. -/
theorem IsPower.head (power : IsPower cs) : ∀ c ∈ cs.head?, c.isDigit = false ∧ c ≠ '.' := by
  cases power with
  | none => simp
  | some marks =>
    rintro c ⟨⟩
    rcases marks with rfl | rfl <;> decide

/-! ### Decimals -/

/-- Digits stop where something else stands. -/
theorem span_digits (digits : ∀ c ∈ ds, c.isDigit = true)
    (stop : ∀ c ∈ cs.head?, c.isDigit = false) :
    (ds ++ cs).takeWhile Char.isDigit = ds ∧ (ds ++ cs).dropWhile Char.isDigit = cs := by
  rw [List.takeWhile_append_of_pos digits, List.dropWhile_append_of_pos digits]
  cases cs with
  | nil => simp
  | cons c cs => simp [stop c rfl]

/-- The digits that a text is split into stand before and behind a point, or there is no point. -/
theorem splitDigits_cases (cs : List Char) :
    ∃ whole fraction rest, splitDigits cs = (whole, fraction, rest) ∧
      (∀ c ∈ whole ++ fraction, c.isDigit = true) ∧
      (cs = whole ++ '.' :: (fraction ++ rest) ∨ fraction = [] ∧ cs = whole ++ rest) := by
  have digits (ds : List Char) : ∀ c ∈ ds.takeWhile Char.isDigit, c.isDigit = true :=
    fun c => List.mem_takeWhile_imp
  have split (ds : List Char) := ds.takeWhile_append_dropWhile (p := Char.isDigit)
  unfold splitDigits
  split
  · next rest shape =>
    refine ⟨_, _, _, rfl, List.forall_mem_append.mpr ⟨digits cs, digits rest⟩, Or.inl ?_⟩
    rw [List.takeWhile_append_dropWhile, ← shape, List.takeWhile_append_dropWhile]
  · exact ⟨_, _, _, rfl, by simpa using digits cs,
      Or.inr ⟨rfl, List.takeWhile_append_dropWhile.symm⟩⟩

theorem splitDigits_mantissa (mantissa : IsMantissa ds)
    (stop : ∀ c ∈ cs.head?, c.isDigit = false ∧ c ≠ '.') :
    ∃ whole fraction, splitDigits (ds ++ cs) = (whole, fraction, cs) ∧
      IsDigits (whole ++ fraction) := by
  have stop' : ∀ c ∈ cs.head?, c.isDigit = false := fun c head => (stop c head).1
  cases mantissa with
  | whole count =>
    obtain ⟨taken, left⟩ := span_digits count.all stop'
    refine ⟨ds, [], ?_, by simpa using count⟩
    unfold splitDigits
    rw [left, taken]
    split
    · next rest => exact absurd rfl (stop '.' rfl).2
    · rfl
  | @pointed whole fraction count =>
    obtain ⟨before, behind⟩ := List.forall_mem_append.mp count.all
    have point : ∀ c ∈ ('.' :: (fraction ++ cs)).head?, c.isDigit = false := by
      rintro c ⟨⟩
      decide
    obtain ⟨taken, left⟩ := span_digits before point
    obtain ⟨taken', left'⟩ := span_digits behind stop'
    refine ⟨whole, fraction, ?_, count⟩
    rw [List.append_assoc, List.cons_append, splitDigits, left, taken]
    change (whole, (fraction ++ cs).takeWhile Char.isDigit,
      (fraction ++ cs).dropWhile Char.isDigit) = (whole, fraction, cs)
    rw [taken', left']

theorem isSome_readDecimal?_iff {negative : Bool} : (readDecimal? negative cs).isSome = true ↔
    ∃ mantissa power, cs = mantissa ++ power ∧ IsMantissa mantissa ∧ IsPower power := by
  have read {whole fraction rest : List Char} (split : splitDigits cs = (whole, fraction, rest)) :
      (readDecimal? negative cs).isSome = true ↔ whole ++ fraction ≠ [] ∧ IsPower rest := by
    rw [← isSome_readExponent?_iff, readDecimal?, split]
    cases whole <;> cases fraction <;> simp
  constructor
  · obtain ⟨whole, fraction, rest, split, digits, shape⟩ := splitDigits_cases cs
    rw [read split]
    rintro ⟨some, power⟩
    rcases shape with rfl | ⟨rfl, rfl⟩
    · exact ⟨whole ++ '.' :: fraction, rest, by simp, .pointed ⟨some, digits⟩, power⟩
    · rw [List.append_nil] at some digits
      exact ⟨whole, rest, rfl, .whole ⟨some, digits⟩, power⟩
  · rintro ⟨mantissa, power, rfl, digits, exponent⟩
    obtain ⟨whole, fraction, split, count⟩ := splitDigits_mantissa digits exponent.head
    exact (read split).mpr ⟨count.ne_nil, exponent⟩

/-! ### Literals -/

theorem isSome_readWord?_iff {negative : Bool} :
    (readWord? negative cs).isSome = true ↔ IsValueWord cs := by
  rw [readWord?, IsValueWord]
  split
  · next infinite => simpa using infinite.imp_right Or.inl
  · next finite =>
    split
    · next nan => simp [nan]
    · next other => simpa using ⟨fun h => finite (Or.inl h), fun h => finite (Or.inr h), other⟩

theorem isSome_read?_iff_splitSign :
    (read? cs).isSome = true ↔ IsUnsigned (splitSign cs).2 := by
  have read : (read? cs).isSome = true ↔
      (readDecimal? (splitSign cs).1 (splitSign cs).2).isSome = true ∨
        (readWord? (splitSign cs).1 (splitSign cs).2).isSome = true := by
    rw [read?]
    obtain ⟨negative, body⟩ := splitSign cs
    change ((readDecimal? negative body).orElse fun _ => readWord? negative body).isSome = true ↔ _
    cases readDecimal? negative body <;> simp
  rw [read, isSome_readDecimal?_iff, isSome_readWord?_iff]
  constructor
  · rintro (⟨mantissa, power, shape, digits, exponent⟩ | word)
    · exact shape ▸ .decimal digits exponent
    · exact .word word
  · intro unsigned
    generalize (splitSign cs).2 = body at unsigned
    cases unsigned with
    | decimal digits exponent => exact Or.inl ⟨_, _, rfl, digits, exponent⟩
    | word word => exact Or.inr word

theorem IsMantissa.noSign (mantissa : IsMantissa ds) : NoSign (ds ++ cs) := by
  have digit {c : Char} {rest : List Char} (here : c.isDigit = true) : NoSign (c :: rest) :=
    noSign_of_isDigit (by simpa using here)
  cases mantissa with
  | whole count =>
    obtain ⟨c, ds, rfl⟩ := List.exists_cons_of_ne_nil count.ne_nil
    exact digit (count.all c List.mem_cons_self)
  | @pointed whole fraction count =>
    cases whole with
    | nil => simp [NoSign]
    | cons c whole => exact digit (count.all c List.mem_cons_self)

/-- The words are made of few letters. -/
theorem IsValueWord.letter (word : IsValueWord cs) :
    ∀ c ∈ cs, c.toLower ∈ ['i', 'n', 'f', 't', 'y', 'a'] := by
  have letters : ∀ text ∈ ["inf", "infinity", "nan"],
      text.toList.all (· ∈ ['i', 'n', 'f', 't', 'y', 'a']) = true := by decide
  intro c member
  apply of_decide_eq_true
  apply List.all_eq_true.mp (letters _ word)
  rw [String.toList_ofList]
  exact List.mem_map_of_mem member

theorem IsValueWord.noSign (word : IsValueWord cs) : NoSign cs := by
  intro c head
  have letter := word.letter c (List.mem_of_mem_head? head)
  constructor <;> rintro rfl <;> exact absurd letter (by decide)

theorem IsUnsigned.noSign (unsigned : IsUnsigned cs) : NoSign cs := by
  cases unsigned with
  | decimal digits _ => exact digits.noSign
  | word word => exact word.noSign

/-- What is read is what the grammar allows. -/
theorem isSome_read?_iff : (read? cs).isSome = true ↔ IsNumeral cs := by
  rw [isSome_read?_iff_splitSign]
  constructor
  · intro unsigned
    obtain ⟨sign, signed, shape⟩ := exists_sign cs
    exact shape ▸ .signed signed unsigned
  · rintro ⟨signed, unsigned⟩
    rwa [splitSign_append signed unsigned.noSign]

/-! ### Spaces -/

theorem IsSign.space_notMem (signed : IsSign cs) : ' ' ∉ cs := by
  cases signed <;> decide

theorem IsDigits.space_notMem (digits : IsDigits cs) : ' ' ∉ cs :=
  fun space => absurd (digits.all ' ' space) (by decide)

theorem IsPower.space_notMem (power : IsPower cs) : ' ' ∉ cs := by
  cases power with
  | none => decide
  | some marks signed digits =>
    have mark : ' ' ≠ 'e' ∧ ' ' ≠ 'E' := by decide
    rcases marks with rfl | rfl <;>
      simp [mark, signed.space_notMem, digits.space_notMem]

theorem IsMantissa.space_notMem (mantissa : IsMantissa cs) : ' ' ∉ cs := by
  cases mantissa with
  | whole digits => exact digits.space_notMem
  | pointed digits =>
    have absent := digits.space_notMem
    simp_all

theorem IsNumeral.space_notMem (numeral : IsNumeral cs) : ' ' ∉ cs := by
  obtain ⟨signed, unsigned⟩ := numeral
  rw [List.mem_append, not_or]
  refine ⟨signed.space_notMem, ?_⟩
  cases unsigned with
  | decimal digits exponent =>
    rw [List.mem_append, not_or]
    exact ⟨digits.space_notMem, exponent.space_notMem⟩
  | word word => exact fun space => absurd (word.letter ' ' space) (by decide)

end PhraseGraph.Literal
