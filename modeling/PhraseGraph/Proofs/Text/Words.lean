import PhraseGraph.Text.Pieces

/-!
# PhraseGraph.Proofs.Text.Words

The words of a text, and the texts that have given words.

## Main statements

`spaced_words`: a text is made of its words with white space between and around them.
`words_eq_of_spaced`: there is no other way to make it of words and white space.
-/

namespace PhraseGraph.Text

variable {cs ds gap piece : List Char} {parts : List (List Char)} {separates : Char → Bool}

/-! ### Pieces -/

theorem mem_of_mem_pieces (member : piece ∈ pieces separates cs) : ∀ c ∈ piece, c ∈ cs := by
  induction cs generalizing piece with
  | nil => simp_all [pieces]
  | cons d cs ih =>
    simp only [pieces] at member
    split at member
    · rcases List.mem_cons.mp member with rfl | later
      · simp
      · exact fun c inside => List.mem_cons_of_mem d (ih later c inside)
    · split at member
      · simp_all
      · next first rest shape =>
        rcases List.mem_cons.mp member with rfl | later
        · intro c inside
          rcases List.mem_cons.mp inside with rfl | inside
          · exact List.mem_cons_self
          · exact List.mem_cons_of_mem d (ih (shape ▸ List.mem_cons_self) c inside)
        · exact fun c inside =>
            List.mem_cons_of_mem d (ih (shape ▸ List.mem_cons_of_mem first later) c inside)

/-- There is one piece more than there are separators. -/
theorem length_pieces : (pieces separates cs).length = cs.countP separates + 1 := by
  induction cs with
  | nil => rfl
  | cons c cs ih =>
    simp only [pieces]
    split
    · next mark => rw [List.length_cons, ih, List.countP_cons_of_pos mark]
    · next plain =>
      split
      · next none => exact absurd none (pieces_ne_nil separates cs)
      · next first rest shape =>
        rw [shape, List.length_cons] at ih
        rw [List.length_cons, ih, List.countP_cons_of_neg plain]

theorem pieces_of_plain (plain : ∀ c ∈ cs, separates c = false) : pieces separates cs = [cs] := by
  induction cs with
  | nil => rfl
  | cons c cs ih =>
    obtain ⟨here, later⟩ := List.forall_mem_cons.mp plain
    simp [pieces, here, ih later]

theorem pieces_append_cons (plain : ∀ c ∈ cs, separates c = false) {mark : Char}
    (marks : separates mark = true) :
    pieces separates (cs ++ mark :: ds) = cs :: pieces separates ds := by
  induction cs with
  | nil => simp [pieces, marks]
  | cons c cs ih =>
    obtain ⟨here, later⟩ := List.forall_mem_cons.mp plain
    simp [pieces, here, ih later]

/-! ### Words -/

/-- White space, or nothing. -/
def IsGap (cs : List Char) : Prop := ∀ c ∈ cs, isBlank c = true

instance : Decidable (IsGap cs) := List.decidableBAll _ cs

theorem isGap_nil : IsGap [] := by simp [IsGap]

/-- Text without white space in it, and not nothing. -/
structure IsWord (cs : List Char) : Prop where
  ne_nil : cs ≠ []
  solid : ∀ c ∈ cs, isBlank c = false

/-- The text is made of the parts in order, with white space between any two of them and perhaps
around them. -/
inductive Spaced : List (List Char) → List Char → Prop
  | gap {gap : List Char} (blank : IsGap gap) : Spaced [] gap
  | last {before after : List Char} (part : List Char) (blank : IsGap before)
    (blank' : IsGap after) : Spaced [part] (before ++ (part ++ after))
  | cons {before gap text : List Char} (part : List Char) {next : List Char}
    {parts : List (List Char)} (blank : IsGap before) (blank' : IsGap gap) (some : gap ≠ [])
    (rest : Spaced (next :: parts) text) :
    Spaced (part :: next :: parts) (before ++ (part ++ (gap ++ text)))

theorem words_gap_append (blank : IsGap gap) : words (gap ++ cs) = words cs := by
  induction gap with
  | nil => rfl
  | cons c gap ih =>
    obtain ⟨here, later⟩ := List.forall_mem_cons.mp blank
    rw [← ih later, List.cons_append, words, pieces, if_pos here]
    rfl

theorem words_of_gap (blank : IsGap gap) : words gap = [] := by
  rw [← List.append_nil gap, words_gap_append blank]
  rfl

theorem words_word_append (word : IsWord cs) (blank : IsGap gap) (some : gap ≠ []) :
    words (cs ++ (gap ++ ds)) = cs :: words ds := by
  obtain ⟨c, gap, rfl⟩ := List.exists_cons_of_ne_nil some
  obtain ⟨here, later⟩ := List.forall_mem_cons.mp blank
  rw [List.cons_append, words, pieces_append_cons word.solid here,
    List.filter_cons_of_pos (by simpa using word.ne_nil), ← words_gap_append later]
  rfl

theorem words_of_word (word : IsWord cs) : words cs = [cs] := by
  rw [words, pieces_of_plain word.solid, List.filter_cons_of_pos (by simpa using word.ne_nil),
    List.filter_nil]

theorem words_eq_of_spaced (spaced : Spaced parts cs) (each : ∀ part ∈ parts, IsWord part) :
    words cs = parts := by
  induction spaced with
  | gap blank => exact words_of_gap blank
  | @last before after part blank blank' =>
    have word : IsWord part := each part List.mem_cons_self
    rw [words_gap_append blank]
    cases after with
    | nil => rw [List.append_nil, words_of_word word]
    | cons c after =>
      rw [← List.append_nil (c :: after), words_word_append word blank' (List.cons_ne_nil c after)]
      rfl
  | cons part blank blank' some rest ih =>
    obtain ⟨word, later⟩ := List.forall_mem_cons.mp each
    rw [words_gap_append blank, words_word_append word blank' some, ih later]

/-- A text can be made of words and white space, character by character from its end. -/
theorem exists_spaced (cs : List Char) :
    ∃ parts, Spaced parts cs ∧ ∀ part ∈ parts, IsWord part := by
  induction cs with
  | nil => exact ⟨[], .gap isGap_nil, by simp⟩
  | cons c cs ih =>
    obtain ⟨parts, spaced, each⟩ := ih
    cases blank : isBlank c with
    | true =>
      refine ⟨parts, ?_, each⟩
      have more {gap : List Char} (rest : IsGap gap) : IsGap (c :: gap) :=
        List.forall_mem_cons.mpr ⟨blank, rest⟩
      cases spaced with
      | gap rest => exact .gap (more rest)
      | last part before after => exact .last part (more before) after
      | cons part before gap some rest => exact .cons part (more before) gap some rest
    | false =>
      -- the character goes to the word that follows it at once, or else it is a word of its own
      have longer {part : List Char} (word : ∀ d ∈ part, isBlank d = false) : IsWord (c :: part) :=
        ⟨List.cons_ne_nil c part, List.forall_mem_cons.mpr ⟨blank, word⟩⟩
      have single : IsWord [c] := longer (by simp)
      cases spaced with
      | gap rest => exact ⟨[[c]], .last [c] isGap_nil rest, by simpa using single⟩
      | @last before after part gap rest =>
        have word := each part List.mem_cons_self
        cases before with
        | nil =>
          exact ⟨[c :: part], .last (c :: part) isGap_nil rest, by simpa using longer word.solid⟩
        | cons b before =>
          exact ⟨[[c], part], .cons [c] isGap_nil gap (List.cons_ne_nil b before)
            (.last part isGap_nil rest), by simpa using ⟨single, word⟩⟩
      | @cons before gap text part next parts ahead blank' some rest =>
        obtain ⟨word, later⟩ := List.forall_mem_cons.mp each
        cases before with
        | nil =>
          exact ⟨(c :: part) :: next :: parts, .cons (c :: part) isGap_nil blank' some rest,
            List.forall_mem_cons.mpr ⟨longer word.solid, later⟩⟩
        | cons b before =>
          exact ⟨[c] :: part :: next :: parts, .cons [c] isGap_nil ahead (List.cons_ne_nil b before)
            (.cons part isGap_nil blank' some rest), List.forall_mem_cons.mpr ⟨single, each⟩⟩

theorem spaced_words (cs : List Char) :
    Spaced (words cs) cs ∧ ∀ word ∈ words cs, IsWord word := by
  obtain ⟨parts, spaced, each⟩ := exists_spaced cs
  rw [words_eq_of_spaced spaced each]
  exact ⟨spaced, each⟩

/-- Parts that are joined by one separator of white space are made into a text by it. -/
theorem spaced_intercalate (blank : IsGap gap) (some : gap ≠ []) (parts : List (List Char)) :
    Spaced parts (gap.intercalate parts) := by
  induction parts with
  | nil => exact .gap isGap_nil
  | cons part parts ih =>
    cases parts with
    | nil => simpa using Spaced.last part isGap_nil isGap_nil
    | cons next parts => simpa using Spaced.cons part isGap_nil blank some ih

end PhraseGraph.Text
