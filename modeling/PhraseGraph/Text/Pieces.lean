/-!
# PhraseGraph.Text.Pieces

White space as Unicode lists it, and the pieces of a text between separators.

## Main statements

`pieces_ne_nil`: a text always has a piece. `not_separates_of_mem_pieces`: no piece
contains a separator. `mem_words`: words are the pieces between blanks that hold a character.
-/

namespace PhraseGraph.Text

/-- The ranges of the Unicode property `White_Space`, both ends included. -/
def blankRanges : List (Nat × Nat) :=
  [(0x0009, 0x000D), (0x0020, 0x0020), (0x0085, 0x0085), (0x00A0, 0x00A0), (0x1680, 0x1680),
   (0x2000, 0x200A), (0x2028, 0x2029), (0x202F, 0x202F), (0x205F, 0x205F), (0x3000, 0x3000)]

/-- White space. The control characters `U+001C` to `U+001F`, the zero width space and the
byte order mark are not. -/
def isBlank (c : Char) : Bool :=
  blankRanges.any fun range => range.1 ≤ c.toNat && c.toNat ≤ range.2

/-- The parts of a text between single separators, empty parts included. -/
def pieces (separates : Char → Bool) : List Char → List (List Char)
  | [] => [[]]
  | c :: cs =>
    if separates c then [] :: pieces separates cs
    else match pieces separates cs with
      | [] => [[c]]
      | piece :: rest => (c :: piece) :: rest

/-- The parts of a text between runs of white space. -/
def words (cs : List Char) : List (List Char) :=
  (pieces isBlank cs).filter fun piece => !piece.isEmpty

/-! ### Laws -/

theorem pieces_ne_nil (separates : Char → Bool) (cs : List Char) : pieces separates cs ≠ [] := by
  cases cs with
  | nil => simp [pieces]
  | cons c cs =>
    simp only [pieces]
    split
    · simp
    · split <;> simp

theorem not_separates_of_mem_pieces {separates : Char → Bool} {cs piece : List Char}
    (member : piece ∈ pieces separates cs) : ∀ c ∈ piece, separates c = false := by
  induction cs generalizing piece with
  | nil => simp_all [pieces]
  | cons c cs ih =>
    simp only [pieces] at member
    split at member
    · rcases List.mem_cons.mp member with rfl | later
      · simp
      · exact ih later
    · next plain =>
      split at member
      · simp_all
      · next first rest shape =>
        rcases List.mem_cons.mp member with rfl | later
        · intro d inside
          rcases List.mem_cons.mp inside with rfl | inside
          · simpa using plain
          · exact ih (shape ▸ List.mem_cons_self) d inside
        · exact ih (shape ▸ List.mem_cons_of_mem _ later)

theorem mem_words {cs word : List Char} : word ∈ words cs ↔ word ∈ pieces isBlank cs ∧ word ≠ [] := by
  simp [words]

example : isBlank ' ' ∧ isBlank '\u0085' ∧ isBlank '\u3000' ∧ ¬ isBlank '\u001C' ∧ ¬ isBlank '\u200B' := by
  decide

end PhraseGraph.Text
