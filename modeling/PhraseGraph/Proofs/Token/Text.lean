import PhraseGraph.Proofs.Outcomes
import PhraseGraph.Proofs.Text.Words
import PhraseGraph.Token

/-!
# PhraseGraph.Proofs.Token.Text

The text of tokens, read again.

A word of a text is a token if there is a slash in it. The text form of a token gives it back if its
fields have neither slashes nor white space in them, and fields that have been read never do.

## Main statements

`Token.failsWith_readAll`: which word of a text is reported.
`Token.readAll_render`: reading and rendering undo each other, up to the spelling of the text.
-/

namespace PhraseGraph.Token

open Text

variable {t : Token} {ts : List Token} {piece : List Char}

/-- There are no slashes and no white space in the text. -/
def IsField (text : String) : Prop := ∀ c ∈ text.toList, c ≠ '/' ∧ isBlank c = false

instance (text : String) : Decidable (IsField text) := List.decidableBAll _ text.toList

structure IsPlain (t : Token) : Prop where
  word : IsField t.word
  tag : IsField t.tag
  headword : IsField t.headword

theorem toList_render (t : Token) : t.render.toList =
    t.word.toList ++ '/' :: (t.tag.toList ++ '/' :: t.headword.toList) := by
  simp [render]

theorem isWord_render (plain : t.IsPlain) : IsWord t.render.toList := by
  rw [toList_render]
  refine ⟨by simp, fun c member => ?_⟩
  have slash : isBlank '/' = false := by decide
  simp only [List.mem_append, List.mem_cons] at member
  rcases member with inside | rfl | inside | rfl | inside
  · exact (plain.word c inside).2
  · exact slash
  · exact (plain.tag c inside).2
  · exact slash
  · exact (plain.headword c inside).2

theorem read_render (plain : t.IsPlain) : read t.render.toList = .ok t := by
  have noSlash {cs : List Char} (each : ∀ c ∈ cs, c ≠ '/' ∧ isBlank c = false) :
      ∀ c ∈ cs, (c == '/') = false := fun c member => by simpa using (each c member).1
  have parts : pieces (· == '/') t.render.toList =
      [t.word.toList, t.tag.toList, t.headword.toList] := by
    rw [toList_render, pieces_append_cons (noSlash plain.word) (beq_self_eq_true _),
      pieces_append_cons (noSlash plain.tag) (beq_self_eq_true _),
      pieces_of_plain (noSlash plain.headword)]
  simp only [read, parts, String.ofList_toList]

/-- A token that is read from a word is made of pieces of the word. -/
theorem isPlain_of_read (solid : ∀ c ∈ piece, isBlank c = false) (returned : read piece = .ok t) :
    t.IsPlain := by
  have field {part : List Char} (member : part ∈ pieces (· == '/') piece) :
      IsField (String.ofList part) := by
    intro c inside
    rw [String.toList_ofList] at inside
    exact ⟨by simpa using not_separates_of_mem_pieces member c inside,
      solid c (mem_of_mem_pieces member c inside)⟩
  unfold read at returned
  split at returned
  · next word tag headword rest shape =>
    cases returned
    exact ⟨field (by simp [shape]), field (by simp [shape]), field (by simp [shape])⟩
  · next word tag shape =>
    cases returned
    exact ⟨field (by simp [shape]), field (by simp [shape]), field (by simp [shape])⟩
  · cases returned

/-- What is reported of a word: that there is no slash in it. -/
def missingTag? (piece : List Char) : Option MissingTag :=
  if '/' ∈ piece then none else some ⟨String.ofList piece⟩

theorem missingTag?_eq_some_iff {e : MissingTag} :
    missingTag? piece = some e ↔ '/' ∉ piece ∧ e = ⟨String.ofList piece⟩ := by
  rw [missingTag?]
  split
  · next slash => exact iff_of_false nofun fun missing => missing.1 slash
  · next noSlash => rw [Option.some.injEq, and_iff_right noSlash, eq_comm]

theorem missingTag?_eq_none_iff : missingTag? piece = none ↔ '/' ∈ piece := by
  simp [missingTag?]

theorem failsWith_read (piece : List Char) :
    FailsWith (read piece) fun e => missingTag? piece = some e := by
  intro e
  have count : (pieces (· == '/') piece).length = piece.count '/' + 1 := length_pieces
  change _ ↔ missingTag? piece = some e
  rw [missingTag?_eq_some_iff, ← List.count_eq_zero, read]
  rcases shape : pieces (· == '/') piece with _ | ⟨word, _ | ⟨tag, rest⟩⟩
  · exact absurd shape (pieces_ne_nil _ piece)
  · -- the word itself is the only piece
    rw [shape, List.length_singleton] at count
    rw [Except.error.injEq, and_iff_right (by omega), eq_comm]
  · rw [shape, List.length_cons, List.length_cons] at count
    cases rest <;> exact iff_of_false nofun fun missing => by omega

theorem readAll_eq_ok_iff {text : String} : readAll text = .ok ts ↔
    List.Forall₂ (fun word t => read word = .ok t) (words text.toList) ts :=
  mapM_eq_ok_iff

theorem failsWith_readAll (text : String) :
    FailsWith (readAll text) fun e => (words text.toList).findSome? missingTag? = some e := by
  intro e
  exact (FailsWith.mapM (fun word _ => failsWith_read word) e).trans firstOf_map_iff

/-- A text is refused if there is no slash in one of its words. -/
theorem exists_error_iff {text : String} :
    (∃ e, readAll text = .error e) ↔ ∃ word ∈ words text.toList, '/' ∉ word := by
  have defined (word : List Char) : (missingTag? word).isSome = true ↔ '/' ∉ word := by
    rw [← missingTag?_eq_none_iff, ← ne_eq, Option.isSome_iff_ne_none]
  simp only [failsWith_readAll text _, ← Option.isSome_iff_exists, List.isSome_findSome?,
    List.any_eq_true, defined]

/-- The first word without a slash is reported. -/
theorem exists_of_readAll_eq_error {text : String} {e : MissingTag}
    (failed : readAll text = .error e) :
    ∃ before word after, words text.toList = before ++ word :: after ∧
      (∀ earlier ∈ before, '/' ∈ earlier) ∧ '/' ∉ word ∧ e = ⟨String.ofList word⟩ := by
  obtain ⟨before, word, after, shape, reported, earlier⟩ :=
    List.findSome?_eq_some_iff.mp ((failsWith_readAll text e).mp failed)
  obtain ⟨noSlash, rfl⟩ := missingTag?_eq_some_iff.mp reported
  exact ⟨before, word, after, shape, fun w member => missingTag?_eq_none_iff.mp (earlier w member),
    noSlash, rfl⟩

/-- A text is read as some tokens if it is made of their text forms and white space. -/
theorem readAll_of_spaced (plain : ∀ t ∈ ts, t.IsPlain) {text : String}
    (spaced : Spaced (ts.map fun t => t.render.toList) text.toList) : readAll text = .ok ts := by
  have each : ∀ word ∈ ts.map fun t => t.render.toList, IsWord word :=
    List.forall_mem_map.mpr fun t member => isWord_render (plain t member)
  rw [readAll_eq_ok_iff, words_eq_of_spaced spaced each, List.forall₂_map_left_iff,
    List.forall₂_same]
  exact fun t member => read_render (plain t member)

theorem isPlain_of_readAll {text : String} (returned : readAll text = .ok ts) :
    ∀ t ∈ ts, t.IsPlain := by
  have each := (spaced_words text.toList).2
  rw [readAll_eq_ok_iff] at returned
  generalize words text.toList = read at returned each
  induction returned with
  | nil => simp
  | cons first _ ih =>
    obtain ⟨word, later⟩ := List.forall_mem_cons.mp each
    exact List.forall_mem_cons.mpr ⟨isPlain_of_read word.solid first, ih later⟩

/-- Plain tokens are read from every text that is made of their text forms. What has been read is
read again from its text forms with a space between them. A text is refused if it has a word without
a slash, and the first such word is named. -/
theorem readAll_render :
    (∀ ts : List Token, (∀ t ∈ ts, t.IsPlain) → ∀ text : String,
      Spaced (ts.map fun t => t.render.toList) text.toList → readAll text = .ok ts) ∧
    (∀ text ts, readAll text = .ok ts →
      readAll (String.intercalate " " (ts.map render)) = .ok ts) ∧
    ∀ text : String, ∃ pieces, Spaced pieces text.toList ∧ (∀ piece ∈ pieces, IsWord piece) ∧
      ((∃ e, readAll text = .error e) ↔ ∃ piece ∈ pieces, '/' ∉ piece) ∧
      ∀ e, readAll text = .error e → ∃ before piece after, pieces = before ++ piece :: after ∧
        (∀ earlier ∈ before, '/' ∈ earlier) ∧ '/' ∉ piece ∧
        e.message = "token `" ++ String.ofList piece ++ "` has no tag" := by
  refine ⟨fun ts plain text spaced => readAll_of_spaced plain spaced, fun text ts returned => ?_,
    fun text => ?_⟩
  · have space : IsGap [' '] := by decide
    apply readAll_of_spaced (isPlain_of_readAll returned)
    rw [String.toList_intercalate, List.map_map]
    exact spaced_intercalate space (List.cons_ne_nil ' ' []) _
  · obtain ⟨spaced, each⟩ := spaced_words text.toList
    refine ⟨words text.toList, spaced, each, exists_error_iff, fun e failed => ?_⟩
    obtain ⟨before, piece, after, shape, earlier, noSlash, rfl⟩ := exists_of_readAll_eq_error failed
    exact ⟨before, piece, after, shape, earlier, noSlash, rfl⟩

/-- Two tokens, the first with nothing in two of its fields. -/
def sparse : List Token := [⟨"", "DT", ""⟩, ⟨"Obama", "NNP", "Obama"⟩]

/-- Two of the words have no slash. -/
def untagged : String := "Obama/NNP president\u3000was/VBD/be here"

theorem readAll_render_sparse : (∀ t ∈ sparse, t.IsPlain) ∧
    Spaced (sparse.map fun t => t.render.toList) "/DT/\u3000\tObama/NNP/Obama ".toList ∧
    readAll "/DT/\u3000\tObama/NNP/Obama " = .ok sparse ∧
    readAll "/DT/ Obama/NNP" = .ok sparse ∧
    readAll (String.intercalate " " (sparse.map render)) = .ok sparse ∧
    readAll untagged = .error ⟨"president"⟩ ∧
    ∃ before after, Spaced (before ++ "president".toList :: after) untagged.toList ∧
      (∀ piece ∈ before ++ "president".toList :: after, IsWord piece) ∧
      (∀ earlier ∈ before, '/' ∈ earlier) ∧ '/' ∉ "president".toList := by
  have plain : ∀ t ∈ sparse, t.IsPlain := by
    rw [sparse, List.forall_mem_cons, List.forall_mem_singleton]
    exact ⟨⟨by decide, by decide, by decide⟩, by decide, by decide, by decide⟩
  have spaced : Spaced (sparse.map fun t => t.render.toList)
      "/DT/\u3000\tObama/NNP/Obama ".toList := by
    have parts : sparse.map (fun t => t.render.toList) =
        ["/DT/".toList, "Obama/NNP/Obama".toList] := by decide
    have text : "/DT/\u3000\tObama/NNP/Obama ".toList = [] ++ ("/DT/".toList ++
        (['\u3000', '\t'] ++ ([] ++ ("Obama/NNP/Obama".toList ++ [' '])))) := by decide
    rw [parts, text]
    exact .cons _ isGap_nil (by decide) (by decide) (.last _ isGap_nil (by decide))
  have short : readAll "/DT/ Obama/NNP" = .ok sparse := by rfl
  have refused : readAll untagged = .error ⟨"president"⟩ := by rfl
  refine ⟨plain, spaced, readAll_render.1 sparse plain _ spaced, short,
    readAll_render.2.1 _ sparse short, refused, ?_⟩
  obtain ⟨pieces, made, each, -, first⟩ := readAll_render.2.2 untagged
  obtain ⟨before, piece, after, rfl, earlier, noSlash, message⟩ := first _ refused
  -- the message tells the piece, since what stands around it is always the same
  rw [MissingTag.message, String.append_left_inj, String.append_right_inj] at message
  have named : "president".toList = piece := by
    rw [show "president" = String.ofList piece from message, String.toList_ofList]
  subst named
  exact ⟨before, after, made, each, earlier, noSlash⟩

end PhraseGraph.Token
