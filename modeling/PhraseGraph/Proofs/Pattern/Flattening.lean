import PhraseGraph.Pattern.Written
import PhraseGraph.Proofs.Pattern.Contexts
import PhraseGraph.Proofs.Pattern.Rows
import PhraseGraph.Proofs.Regex.Built

/-!
# PhraseGraph.Proofs.Pattern.Flattening

What the builders of patterns keep when they open sequences and alternatives.

A sequence is written without a group, so that its members may as well stand in the row around it.
Alternatives that are opened keep what is matched and the order in which it is tried. But what
alternatives share at their start is taken out of them when they become an expression, and that
may be less, or more, once they stand among others.

## Main statements

`Pattern.interchangeable_inOrder`: a built sequence and a plain one are written alike.
`Pattern.language_oneOf`, `Pattern.regex_oneOf` and `Pattern.ways_oneOf`: what a choice matches, when
its expression stays the same, and in which order it tries what it matches.
-/

namespace PhraseGraph

namespace Pattern

variable {p q : Pattern} {ps qs : List Pattern}

/-! ### Lists of patterns -/

section Append

variable (ps qs : List Pattern)

theorem writtenAll_append : writtenAll (ps ++ qs) = writtenAll ps ++ writtenAll qs := by
  induction ps with
  | nil => rfl
  | cons p ps ih => rw [List.cons_append, writtenAll, writtenAll, ih, List.append_assoc]

theorem writtenOthers_append : writtenOthers (ps ++ qs) = writtenOthers ps ++ writtenOthers qs := by
  induction ps with
  | nil => rfl
  | cons p ps ih => simp [writtenOthers, ih]

theorem itemCountAll_append : itemCountAll (ps ++ qs) = itemCountAll ps + itemCountAll qs := by
  induction ps with
  | nil => rw [List.nil_append, itemCountAll, Nat.zero_add]
  | cons p ps ih => rw [List.cons_append, itemCountAll, itemCountAll, ih, Nat.add_assoc]

theorem itemLevelsAll_append :
    itemLevelsAll (ps ++ qs) = max (itemLevelsAll ps) (itemLevelsAll qs) := by
  induction ps with
  | nil => rw [List.nil_append, itemLevelsAll, Nat.zero_max]
  | cons p ps ih => rw [List.cons_append, itemLevelsAll, itemLevelsAll, ih, Nat.max_assoc]

theorem branchLevels_append : branchLevels (ps ++ qs) = max (branchLevels ps) (branchLevels qs) := by
  induction ps with
  | nil => rw [List.nil_append, branchLevels, Nat.zero_max]
  | cons p ps ih => rw [List.cons_append, branchLevels, branchLevels, ih, Nat.max_assoc]

theorem areBounded_append : areBounded (ps ++ qs) = (areBounded ps && areBounded qs) := by
  induction ps with
  | nil => rfl
  | cons p ps ih => rw [List.cons_append, areBounded, areBounded, ih, Bool.and_assoc]

end Append

/-! ### Patterns that are written alike -/

/-- Patterns with the same text and the same expression, which count alike towards the limits. -/
structure Interchangeable (p q : Pattern) : Prop where
  written_eq : p.written = q.written
  regex_eq : p.regex = q.regex
  isBounded_eq : p.isBounded = q.isBounded
  itemCount_eq : p.itemCount = q.itemCount
  itemLevels_eq : p.itemLevels = q.itemLevels

namespace Interchangeable

theorem symm (same : Interchangeable p q) : Interchangeable q p :=
  ⟨same.written_eq.symm, same.regex_eq.symm, same.isBounded_eq.symm, same.itemCount_eq.symm,
    same.itemLevels_eq.symm⟩

theorem trans {r : Pattern} (first : Interchangeable p q) (second : Interchangeable q r) :
    Interchangeable p r :=
  ⟨first.written_eq.trans second.written_eq, first.regex_eq.trans second.regex_eq,
    first.isBounded_eq.trans second.isBounded_eq, first.itemCount_eq.trans second.itemCount_eq,
    first.itemLevels_eq.trans second.itemLevels_eq⟩

theorem source_eq (same : Interchangeable p q) (mode : MatchMode) : p.source mode = q.source mode := by
  unfold source
  rw [same.written_eq]

theorem nesting_eq (same : Interchangeable p q) : p.nesting = q.nesting := by
  rw [nesting, nesting, same.itemCount_eq, same.itemLevels_eq]

theorem isWellFormed_eq (same : Interchangeable p q) : p.isWellFormed = q.isWellFormed := by
  rw [isWellFormed, isWellFormed, same.isBounded_eq, same.nesting_eq]

end Interchangeable

theorem congruence_regex : Congruence fun p q => p.regex = q.regex where
  sequence before after same := by simp [regex, same]
  anyOf before after same := by simp [regex, same]
  optional same := by rw [regex, regex, same]
  repeated least most same := by rw [regex, regex, same]

theorem congruence_interchangeable : Congruence Interchangeable where
  sequence before after same := by
    obtain ⟨written_eq, regex_eq, isBounded_eq, itemCount_eq, itemLevels_eq⟩ := same
    refine ⟨?_, congruence_regex.sequence before after regex_eq, ?_, ?_, ?_⟩
    · rw [written, written, writtenAll_append, writtenAll_append, writtenAll, writtenAll, written_eq]
    · rw [isBounded, isBounded, areBounded_append, areBounded_append, areBounded, areBounded,
        isBounded_eq]
    · rw [itemCount, itemCount, itemCountAll_append, itemCountAll_append, itemCountAll, itemCountAll,
        itemCount_eq]
    · rw [itemLevels, itemLevels, itemLevelsAll_append, itemLevelsAll_append, itemLevelsAll,
        itemLevelsAll, itemLevels_eq]
  anyOf before after same := by
    obtain ⟨written_eq, regex_eq, isBounded_eq, itemCount_eq, itemLevels_eq⟩ := same
    refine ⟨?_, congruence_regex.anyOf before after regex_eq, ?_, rfl, ?_⟩
    · -- only the first alternative has no bar in front of it
      cases before with
      | nil => rw [List.nil_append, List.nil_append, written, written, written_eq]
      | cons other before =>
        rw [List.cons_append, List.cons_append, written, written, writtenOthers_append,
          writtenOthers_append, writtenOthers, writtenOthers, written_eq]
    · rw [isBounded, isBounded, areBounded_append, areBounded_append, areBounded, areBounded,
        isBounded_eq]
    · have levels (r : Pattern) : (anyOf (before ++ r :: after)).itemLevels =
          1 + rowLevel (before ++ r :: after).length + branchLevels (before ++ r :: after) := by
        cases before <;> rfl
      rw [levels, levels, branchLevels_append, branchLevels_append, branchLevels, branchLevels,
        itemCount_eq, itemLevels_eq, List.length_append, List.length_append, List.length_cons,
        List.length_cons]
  optional same := by
    obtain ⟨written_eq, regex_eq, isBounded_eq, itemCount_eq, itemLevels_eq⟩ := same
    refine ⟨?_, congruence_regex.optional regex_eq, ?_, rfl, ?_⟩
    · rw [written, written, written_eq]
    · rw [isBounded, isBounded, isBounded_eq]
    · rw [itemLevels, itemLevels, itemCount_eq, itemLevels_eq]
  repeated least most same := by
    obtain ⟨written_eq, regex_eq, isBounded_eq, itemCount_eq, itemLevels_eq⟩ := same
    refine ⟨?_, congruence_regex.repeated least most regex_eq, ?_, rfl, ?_⟩
    · rw [written, written, written_eq]
    · rw [isBounded, isBounded, isBounded_eq]
    · rw [itemLevels, itemLevels, itemCount_eq, itemLevels_eq]

/-! ### Sequences -/

theorem interchangeable_singleton (p : Pattern) : Interchangeable (sequence [p]) p := by
  refine ⟨?_, ?_, ?_, ?_, ?_⟩
  · rw [written, writtenAll, writtenAll, List.append_nil]
  · rw [regex, regexes, regexes, (isBuilt_regex p).inOrder_singleton]
  · rw [isBounded, areBounded, areBounded, Bool.and_true]
  · rw [itemCount, itemCountAll, itemCountAll, Nat.add_zero]
  · rw [itemLevels, itemLevelsAll, itemLevelsAll, Nat.max_zero]

/-- A pattern and the sequence of its members. -/
theorem interchangeable_members (p : Pattern) : Interchangeable (sequence p.sequenceMembers) p := by
  cases p with
  | sequence ps => exact ⟨rfl, rfl, rfl, rfl, rfl⟩
  | _ => exact interchangeable_singleton _

/-- A sequence among the members of a sequence may be opened. -/
theorem interchangeable_open (before ps after : List Pattern) :
    Interchangeable (sequence (before ++ ps ++ after)) (sequence (before ++ sequence ps :: after)) := by
  refine ⟨?_, ?_, ?_, ?_, ?_⟩
  · simp only [written, writtenAll_append, writtenAll, List.append_assoc]
  · -- what is built is flat, so that the members have the parts that the sequence has
    rw [regex, regex]
    apply Regex.inOrder_congr
    simp only [regexes_eq_map, List.map_append, List.map_cons, List.flatMap_append,
      List.flatMap_cons, regex, List.append_assoc]
    rw [← regexes_eq_map ps, Regex.parts_inOrder (isBuilt_regexes ps)]
  · simp only [isBounded, areBounded_append, areBounded, Bool.and_assoc]
  · simp only [itemCount, itemCountAll_append, itemCountAll, Nat.add_assoc]
  · simp only [itemLevels, itemLevelsAll_append, itemLevelsAll, Nat.max_assoc]

/-- All members of a sequence may be opened, each in its way. -/
theorem interchangeable_flatMap {members : Pattern → List Pattern}
    (each : ∀ p ∈ ps, Interchangeable (sequence (members p)) p) :
    Interchangeable (sequence (ps.flatMap members)) (sequence ps) := by
  induction ps with
  | nil => exact ⟨rfl, rfl, rfl, rfl, rfl⟩
  | cons p ps ih =>
    obtain ⟨here, later⟩ := List.forall_mem_cons.mp each
    -- the other members are opened in a sequence of their own, which is opened in turn
    have first := (interchangeable_open [] (members p) (ps.flatMap members)).trans
      (congruence_interchangeable.sequence [] _ here)
    have others := congruence_interchangeable.sequence [p] [] (ih later)
    have closed := interchangeable_open [p] (ps.flatMap members) []
    have opened := (interchangeable_open [p] ps []).symm
    rw [List.append_nil] at closed opened
    exact first.trans (closed.trans (others.trans opened))

theorem interchangeable_inOrder (ps : List Pattern) :
    Interchangeable (inOrder ps) (sequence ps) := by
  have opened : Interchangeable (sequence (ps.flatMap sequenceMembers)) (sequence ps) :=
    interchangeable_flatMap fun p _ => interchangeable_members p
  rw [inOrder]
  split
  · next p single =>
    rw [single] at opened
    exact (interchangeable_singleton p).symm.trans opened
  · exact opened

/-! ### Alternatives -/

theorem language_anyOf (ps : List Pattern) : (anyOf ps).language = (ps.map language).sum := by
  rw [language, languages_eq_map]

theorem language_anyOfMembers (p : Pattern) : (p.anyOfMembers.map language).sum = p.language := by
  cases p with
  | anyOf ps => exact (language_anyOf ps).symm
  | _ => simp [anyOfMembers]

theorem language_flatMap_anyOfMembers (ps : List Pattern) :
    ((ps.flatMap anyOfMembers).map language).sum = (ps.map language).sum := by
  induction ps with
  | nil => rfl
  | cons p ps ih => simp [ih, language_anyOfMembers]

theorem language_oneOf (ps : List Pattern) : (oneOf ps).language = (anyOf ps).language := by
  rw [language_anyOf, ← language_flatMap_anyOfMembers, oneOf]
  split
  · next p single => simp [single]
  · exact language_anyOf _

theorem roundsTake_anyOfMembers : (∀ q ∈ p.anyOfMembers, q.RoundsTake) ↔ p.RoundsTake := by
  cases p with
  | anyOf ps => exact roundsTake_anyOf.symm
  | _ => exact List.forall_mem_singleton

theorem roundsTake_oneOf : (oneOf ps).RoundsTake ↔ (anyOf ps).RoundsTake := by
  have opened : (∀ q ∈ ps.flatMap anyOfMembers, q.RoundsTake) ↔ (anyOf ps).RoundsTake := by
    simp only [roundsTake_anyOf, List.forall_mem_flatMap, roundsTake_anyOfMembers]
  rw [oneOf]
  split
  · next p single =>
    rw [single, List.forall_mem_singleton] at opened
    exact opened
  · rw [← opened, roundsTake_anyOf]

/-- The alternatives at each place among the patterns share nothing, and some of them can match. -/
def NothingShared (ps : List Pattern) : Prop :=
  ∀ qs, .anyOf qs ∈ ps → Regex.sharedCount ((regexes qs).flatMap Regex.branches) = 0 ∧
    ∃ e ∈ (regexes qs).flatMap Regex.branches, e ≠ .never

theorem flatMap_branches_anyOfMembers (unshared : NothingShared ps) (inside : p ∈ ps) :
    (regexes p.anyOfMembers).flatMap Regex.branches = p.regex.branches := by
  cases p with
  | anyOf qs =>
    obtain ⟨none, some⟩ := unshared qs inside
    rw [regex, Regex.branches_oneOf (isBuilt_regexes qs) some none, anyOfMembers]
  | _ => simp [anyOfMembers]

/-- If nothing was taken out of the alternatives that are opened, then they have the same expression
as before. -/
theorem regex_oneOf (unshared : NothingShared ps) : (oneOf ps).regex = (anyOf ps).regex := by
  -- the branches of the alternatives do not depend on how these were grouped
  have flat : (regexes (ps.flatMap anyOfMembers)).flatMap Regex.branches =
      (regexes ps).flatMap Regex.branches := by
    rw [regexes_eq_map, regexes_eq_map, List.map_flatMap, List.flatMap_assoc, List.flatMap_map]
    refine List.flatMap_congr fun p inside => ?_
    rw [← regexes_eq_map, flatMap_branches_anyOfMembers unshared inside]
  have opened : (anyOf (ps.flatMap anyOfMembers)).regex = (anyOf ps).regex := by
    rw [regex, regex, Regex.oneOf_congr flat]
  rw [oneOf]
  split
  · next p single =>
    rw [← opened, single, regex, regexes, regexes, (isBuilt_regex p).oneOf_singleton]
  · exact opened

/-! ### The order of backtracking -/

/-- Whatever alternatives share settles where they go on, before and after those among them that are
choices themselves have been opened, and in these choices. -/
structure OpensSettled (ps : List Pattern) : Prop where
  closed : Regex.SharesSettled (regexes ps)
  opened : Regex.SharesSettled (regexes (ps.flatMap anyOfMembers))
  inside : ∀ qs, .anyOf qs ∈ ps → Regex.SharesSettled (regexes qs)

theorem sameWays_anyOf (settled : Regex.SharesSettled (regexes ps)) :
    SameWays (anyOf ps).regex.ways (.oneOf ((regexes ps).map Regex.ways)) := by
  rw [regex]
  exact Regex.ways_oneOf settled

theorem sameWays_anyOfMembers (settled : ∀ qs, p = .anyOf qs → Regex.SharesSettled (regexes qs)) :
    SameWays (.oneOf ((regexes p.anyOfMembers).map Regex.ways)) p.regex.ways := by
  cases p with
  | anyOf qs => exact (sameWays_anyOf (settled qs rfl)).symm
  | _ => exact .of_eq (Ways.orElse_fail _)

theorem sameWays_flatMap_anyOfMembers
    (settled : ∀ qs, .anyOf qs ∈ ps → Regex.SharesSettled (regexes qs)) :
    SameWays (.oneOf ((regexes (ps.flatMap anyOfMembers)).map Regex.ways))
      (.oneOf ((regexes ps).map Regex.ways)) := by
  induction ps with
  | nil => exact .refl _
  | cons p ps ih =>
    have here := sameWays_anyOfMembers (p := p)
      fun qs same => settled qs (same ▸ List.mem_cons_self)
    have later := ih fun qs inside => settled qs (List.mem_cons_of_mem p inside)
    simp only [regexes_eq_map, List.flatMap_cons, List.map_append, List.map_cons,
      Ways.oneOf_append, Ways.oneOf_cons] at here later ⊢
    exact here.orElse later

/-- Alternatives are tried in the same order after some of them have been opened. -/
theorem ways_oneOf (settled : OpensSettled ps) :
    SameWays (oneOf ps).regex.ways (anyOf ps).regex.ways := by
  have opened : SameWays (.oneOf ((regexes (ps.flatMap anyOfMembers)).map Regex.ways))
      (anyOf ps).regex.ways :=
    (sameWays_flatMap_anyOfMembers settled.inside).trans (sameWays_anyOf settled.closed).symm
  rw [oneOf]
  split
  · next p single =>
    rw [single] at opened
    exact (SameWays.of_eq (Ways.orElse_fail _).symm).trans opened
  · exact (sameWays_anyOf settled.opened).trans opened

/-- What alternatives around the gap share settles where they go on, with the pattern in the gap. -/
def Context.SharesSettled : Context → Pattern → Prop
  | .hole, _ => True
  | .sequence _ inner _, p => inner.SharesSettled p
  | .anyOf before inner after, p =>
    Regex.SharesSettled (regexes (before ++ inner.fill p :: after)) ∧ inner.SharesSettled p
  | .optional inner, p => inner.SharesSettled p
  | .repeated inner _ _, p => inner.SharesSettled p

theorem sameWays_repeating (bounded : p.isBounded = true) (bounded' : q.isBounded = true)
    (same : SameWays p.regex.ways q.regex.ways) (least : Nat) (most : Option Nat) :
    SameWays (Regex.repeating p.regex least most).ways (Regex.repeating q.regex least most).ways := by
  have left : SameWays _ _ := Regex.ways_repeating (isBounded_regex p bounded) least most
  have right : SameWays _ _ := Regex.ways_repeating (isBounded_regex q bounded') least most
  exact left.trans ((same.copies least most).trans right.symm)

/-- What is tried in the same order is also tried in the same order as a part of something else. -/
theorem Context.ways_fill {c : Context} (bounded : (c.fill p).isBounded = true)
    (bounded' : (c.fill q).isBounded = true) (settled : c.SharesSettled p)
    (settled' : c.SharesSettled q) (same : SameWays p.regex.ways q.regex.ways) :
    SameWays (c.fill p).regex.ways (c.fill q).regex.ways := by
  induction c with
  | hole => exact same
  | sequence before inner after ih =>
    rw [fill, isBounded, areBounded_append, areBounded, Bool.and_eq_true, Bool.and_eq_true]
      at bounded bounded'
    have inner := ih bounded.2.1 bounded'.2.1 settled settled'
    simp only [fill, regex, Regex.ways_inOrder, regexes_eq_map, List.map_append, List.map_cons]
    exact inner.inOrder
  | anyOf before inner after ih =>
    rw [fill, isBounded, areBounded_append, areBounded, Bool.and_eq_true, Bool.and_eq_true]
      at bounded bounded'
    have inner := ih bounded.2.1 bounded'.2.1 settled.2 settled'.2
    refine (sameWays_anyOf settled.1).trans (SameWays.trans ?_ (sameWays_anyOf settled'.1).symm)
    simp only [regexes_eq_map, List.map_append, List.map_cons]
    exact inner.oneOf
  | optional inner ih =>
    rw [fill, isBounded] at bounded bounded'
    rw [fill, fill, regex, regex]
    exact sameWays_repeating bounded bounded' (ih bounded bounded' settled settled') 0 (some 1)
  | repeated inner least most ih =>
    have bounded := (isBounded_repeated.mp bounded).2
    have bounded' := (isBounded_repeated.mp bounded').2
    rw [fill, fill, regex, regex]
    exact sameWays_repeating bounded bounded' (ih bounded bounded' settled settled') least most

/-- Alternatives that are opened in the gap are tried in the order in which they were before: rounds
of endless repetitions take something, and whatever alternatives share settles where they go on. -/
structure Context.KeepsOrder (c : Context) (ps : List Pattern) : Prop where
  rounds : (c.fill (.anyOf ps)).RoundsTake
  opens : OpensSettled ps
  built : c.SharesSettled (oneOf ps)
  plain : c.SharesSettled (.anyOf ps)

theorem Context.KeepsOrder.rounds_built {c : Context} (keeps : c.KeepsOrder ps) :
    (c.fill (oneOf ps)).RoundsTake :=
  (congruence_roundsTake.fill c ⟨language_oneOf ps, roundsTake_oneOf⟩).2.mpr keeps.rounds

theorem Context.KeepsOrder.sameWays {c : Context} (keeps : c.KeepsOrder ps)
    (bounded : (c.fill (oneOf ps)).isBounded = true)
    (bounded' : (c.fill (.anyOf ps)).isBounded = true) :
    SameWays (c.fill (oneOf ps)).regex.ways (c.fill (.anyOf ps)).regex.ways :=
  c.ways_fill bounded bounded' keeps.built keeps.plain (ways_oneOf keeps.opens)

/-! ### Phrases of tokens -/

/-- A token, or tokens in a row. -/
inductive IsPhrase : Pattern → Prop
  | token (t : TokenPattern) : IsPhrase (.token t)
  | sequence {ps : List Pattern} : (∀ p ∈ ps, IsPhrase p) → IsPhrase (.sequence ps)

theorem IsPhrase.plain (phrase : p.IsPhrase) : ∀ part ∈ p.regex.parts, Regex.IsPlain part := by
  induction phrase with
  | token t =>
    obtain ⟨row, same, plain⟩ := exists_row t
    -- characters and fields are parts of their own, so the row is what is built from it
    have flat : row.flatMap Regex.parts = row :=
      Regex.flatMap_parts_of_flat fun e inside => Regex.IsPlain.parts (plain e inside)
    rw [regex, same, Regex.inOrder, flat]
    split
    · next part => rwa [Regex.IsPlain.parts (plain part (List.mem_singleton_self part))]
    · exact plain
  | @sequence ps _ ih =>
    rw [regex, Regex.parts_inOrder (isBuilt_regexes ps), regexes_eq_map, List.flatMap_map,
      List.forall_mem_flatMap]
    exact ih

/-- Alternative phrases share nothing but pieces of tokens. -/
theorem sharesPlainly_of_phrases (phrases : ∀ p ∈ ps, p.IsPhrase) :
    Regex.SharesPlainly (regexes ps) := by
  apply Regex.sharesPlainly_of_parts
  rw [regexes_eq_map, List.forall_mem_map]
  exact fun p inside => (phrases p inside).plain

/-! ### Phrases of words -/

theorem mem_language_headword {text : String} {ts : List Token} :
    ts ∈ (headword text).language ↔ ∃ t : Token, stripped t.headword = stripped text ∧ ts = [t] := by
  rw [headword, language]
  change (∃ t : Token, (true && stripped t.headword == stripped text) = true ∧ ts = [t]) ↔ _
  simp only [Bool.true_and, beq_iff_eq]

theorem mem_prod_headword {texts : List String} {ts : List Token} :
    ts ∈ (texts.map fun text => (headword text).language).prod ↔
      ts.map (fun t => stripped t.headword) = texts.map stripped := by
  induction texts generalizing ts with
  | nil => simp
  | cons text texts ih =>
    rw [List.map_cons, List.prod_cons, Language.mem_mul, List.map_cons]
    constructor
    · rintro ⟨us, first, vs, others, rfl⟩
      obtain ⟨t, same, rfl⟩ := mem_language_headword.mp first
      rw [List.singleton_append, List.map_cons, same, ih.mp others]
    · intro same
      obtain ⟨t, others, rfl, first, rest⟩ := List.map_eq_cons_iff.mp same
      exact ⟨[t], mem_language_headword.mpr ⟨t, first, rfl⟩, others, ih.mpr rest, rfl⟩

/-- The words of a phrase. -/
def phraseWords (phrase : String) : List String := (Text.words phrase.toList).map String.ofList

theorem headwords_eq (phrase : String) :
    headwords phrase = inOrder ((phraseWords phrase).map headword) := by
  rw [headwords, phraseWords, List.map_map]
  rfl

/-- A phrase of words matches tokens with these words as their headwords, one by one. -/
theorem mem_language_headwords {phrase : String} {ts : List Token} :
    ts ∈ (headwords phrase).language ↔
      ts.map (fun t => stripped t.headword) = (phraseWords phrase).map stripped := by
  rw [headwords_eq, language_inOrder, List.map_map]
  exact mem_prod_headword

theorem areBounded_headword (texts : List String) : areBounded (texts.map headword) = true := by
  induction texts with
  | nil => rfl
  | cons text texts ih => exact ih

theorem itemLevelsAll_headword (texts : List String) : itemLevelsAll (texts.map headword) ≤ 5 := by
  induction texts with
  | nil => exact Nat.zero_le 5
  | cons text texts ih => exact max_le le_rfl ih

/-- However long a phrase is, its pattern is well formed. -/
theorem isWellFormed_headwords (phrase : String) : (headwords phrase).isWellFormed = true := by
  have levels := itemLevelsAll_headword (phraseWords phrase)
  have row : rowLevel (sequence ((phraseWords phrase).map headword)).itemCount ≤ 1 := by
    unfold rowLevel
    split <;> omega
  rw [headwords_eq, (interchangeable_inOrder _).isWellFormed_eq, isWellFormed, isBounded,
    areBounded_headword, Bool.true_and, decide_eq_true_eq, nesting, itemLevels, nestingLimit]
  omega

end Pattern

end PhraseGraph
