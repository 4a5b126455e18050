import PhraseGraph.Proofs.Matcher.Full
import PhraseGraph.Proofs.Pattern.Nesting

/-!
# PhraseGraph.Proofs.Matcher.Malformed

Sets of patterns that do not compile.

All patterns are looked at in order before any program is made, and the first one that is malformed
is reported. How often a pattern can be put into another one follows from the levels that this adds
to its text.

## Main statements

`Matcher.compile_error_iff`: a set of patterns whose programs are small fails to compile exactly if
a pattern is malformed, and then the first one is reported, in both modes alike. Sequences within
sequences play no part in that.
`Matcher.compile_iterate_iff`: how often any token can be wrapped in the same way.
-/

namespace PhraseGraph

/-! ### Small programs -/

namespace Regex

/-- What a program for a single expression takes beside the expression. -/
theorem programSize_singleton_le (reading : Reading) (toEnd : Bool) (e : Regex) :
    programSize reading toEnd [e] ≤ e.size reading + 272 := by
  have start : startSize reading toEnd ≤ 112 := by cases reading <;> cases toEnd <;> decide
  have member : memberSize reading toEnd e ≤ e.size reading + 160 := by
    have inner : (if e = empty then 0 else e.size reading) ≤ e.size reading := by
      split <;> omega
    cases reading <;> cases toEnd <;> simp [memberSize, stateSize] <;> omega
  have alone : programSize reading toEnd [e] =
      startSize reading toEnd + memberSize reading toEnd e := rfl
  omega

end Regex

/-! ### Patterns around patterns -/

/-- What is put around a pattern as a single item adds its levels to those of the pattern. -/
theorem Pattern.nesting_around {p q : Pattern} {levels : Nat} (single : q.itemCount = 1)
    (around : q.itemLevels = levels + (rowLevel p.itemCount + p.itemLevels)) :
    q.nesting = levels + p.nesting := by
  have alone : rowLevel 1 = 0 := rfl
  rw [nesting, nesting, single, around, alone]
  omega

/-- A way to put patterns into patterns which adds the same number of levels to each of them, and
little to their programs. -/
structure Wrapping (wrap : Pattern → Pattern) (levels : Nat) : Prop where
  nesting_eq (p : Pattern) : (wrap p).nesting = levels + p.nesting
  isBounded_eq (p : Pattern) : (wrap p).isBounded = p.isBounded
  onlyEmpty_eq {p : Pattern} : p.regex.onlyEmpty = false → (wrap p).regex.onlyEmpty = false
  size_le {p : Pattern} (reading : Regex.Reading) : p.regex.onlyEmpty = false →
    (wrap p).regex.size reading ≤ p.regex.size reading + 72

namespace Wrapping

variable {wrap : Pattern → Pattern} {levels : Nat}

theorem nesting_iterate (wraps : Wrapping wrap levels) (p : Pattern) (n : Nat) :
    (wrap^[n] p).nesting = levels * n + p.nesting := by
  induction n with
  | zero => rw [Function.iterate_zero_apply, Nat.mul_zero, Nat.zero_add]
  | succ n ih =>
    rw [Function.iterate_succ_apply', wraps.nesting_eq, ih, Nat.mul_succ]
    omega

theorem isBounded_iterate (wraps : Wrapping wrap levels) (p : Pattern) (n : Nat) :
    (wrap^[n] p).isBounded = p.isBounded := by
  induction n with
  | zero => rfl
  | succ n ih => rw [Function.iterate_succ_apply', wraps.isBounded_eq, ih]

/-- Every wrapping adds the same number of bytes at most. This needs that the pattern does not
match the empty text alone, since then the expression around it is another one. -/
theorem size_iterate_le (wraps : Wrapping wrap levels) {p : Pattern}
    (proper : p.regex.onlyEmpty = false) (reading : Regex.Reading) (n : Nat) :
    (wrap^[n] p).regex.onlyEmpty = false ∧
      (wrap^[n] p).regex.size reading ≤ p.regex.size reading + 72 * n := by
  induction n with
  | zero => exact ⟨proper, le_rfl⟩
  | succ n ih =>
    obtain ⟨inner, bound⟩ := ih
    rw [Function.iterate_succ_apply']
    refine ⟨wraps.onlyEmpty_eq inner, (wraps.size_le reading inner).trans ?_⟩
    omega

end Wrapping

theorem wrapping_optional : Wrapping .optional 2 where
  nesting_eq p := Pattern.nesting_around rfl rfl
  isBounded_eq p := by rw [Pattern.isBounded]
  onlyEmpty_eq proper := by simp [Pattern.regex, Regex.repeating, Regex.onlyEmpty, proper]
  size_le reading proper := by
    simp [Pattern.regex, Regex.repeating, proper, Regex.size, Regex.forkSize, Regex.stateSize,
      Regex.waySize]

theorem wrapping_repeated : Wrapping (.repeated · 1 none) 2 where
  nesting_eq p := Pattern.nesting_around rfl rfl
  isBounded_eq p := by simp [Pattern.isBounded]
  onlyEmpty_eq proper := by simp [Pattern.regex, Regex.repeating, Regex.onlyEmpty, proper]
  size_le reading proper := by
    simp [Pattern.regex, Regex.repeating, proper, Regex.size, Regex.forkSize, Regex.stateSize,
      Regex.waySize]

theorem wrapping_anyOf : Wrapping (fun p => .anyOf [p]) 1 := by
  -- a choice of one branch is its branch
  have regex_eq (p : Pattern) : (Pattern.anyOf [p]).regex = p.regex := by
    rw [Pattern.regex, Pattern.regexes, Pattern.regexes, (Pattern.isBuilt_regex p).oneOf_singleton]
  refine ⟨fun p => ?_, fun p => ?_, fun {p} proper => ?_, fun {p} reading _ => ?_⟩
  · apply Pattern.nesting_around rfl
    simp [Pattern.itemLevels, Pattern.branchLevels, Pattern.rowLevel]
  · simp [Pattern.isBounded, Pattern.areBounded]
  · rwa [regex_eq]
  · rw [regex_eq]
    exact Nat.le_add_right _ _

namespace Matcher

variable {ρ : Type} {mode : MatchMode} {entries : List (Pattern × ρ)}

/-! ### Which pattern is reported -/

/-- The pattern at this place is malformed, and none before it is. -/
def FirstMalformed (mode : MatchMode) (entries : List (Pattern × ρ)) (i : Nat) : Prop :=
  ∃ inside : i < entries.length, entries[i].1.Malformed mode ∧
    ∀ j, ∀ earlier : j < i, ¬ entries[j].1.Malformed mode

/-- If a pattern is malformed, then the first of these is reported. -/
theorem compile_eq_malformed_iff {i : Nat} :
    compile mode entries = .error (.malformed i) ↔ FirstMalformed mode entries i := by
  -- the search for a malformed pattern comes before all else
  have reported : compile mode entries = .error (.malformed i) ↔
      entries.findIdx? (fun entry => !entry.1.isWellFormed) = some i := by
    unfold compile
    split
    · next index found => simp [found]
    · next none =>
      simp only [none]
      split <;> simp
  rw [reported, List.findIdx?_eq_some_iff_getElem]
  simp only [FirstMalformed, Pattern.malformed_iff, Bool.not_eq_true', Bool.not_eq_false]

/-- Only if all patterns are well formed does it matter how large their programs are. -/
theorem compile_eq_tooLarge_iff : compile mode entries = .error .tooLarge ↔
    (∀ entry ∈ entries, ¬ entry.1.Malformed mode) ∧
      fits mode (entries.map fun entry => entry.1.regex) = false := by
  simp only [Pattern.not_malformed_iff]
  unfold compile
  split
  · next index found =>
    obtain ⟨inside, malformed, -⟩ := List.findIdx?_eq_some_iff_getElem.mp found
    constructor
    · rintro ⟨⟩
    · rintro ⟨wellFormed, -⟩
      simp [wellFormed _ (List.getElem_mem inside)] at malformed
  · next none =>
    have wellFormed : ∀ entry ∈ entries, entry.1.isWellFormed = true := by
      simpa using List.findIdx?_eq_none_iff.mp none
    simp only [List.map_map, Function.comp_def]
    split
    · next small => simp [small]
    · next large => exact ⟨fun _ => ⟨wellFormed, Bool.eq_false_of_not_eq_true large⟩, fun _ => rfl⟩

theorem exists_compile_iff : (∃ m, compile mode entries = .ok m) ↔
    (∀ entry ∈ entries, ¬ entry.1.Malformed mode) ∧
      fits mode (entries.map fun entry => entry.1.regex) = true := by
  simp only [compile_eq_ok_iff, Pattern.not_malformed_iff, exists_eq_left]

section Small

variable (small : (∀ entry ∈ entries, ¬ entry.1.Malformed mode) →
  fits mode (entries.map fun entry => entry.1.regex) = true)

include small

theorem exists_error_iff :
    (∃ e, compile mode entries = .error e) ↔ ∃ entry ∈ entries, entry.1.Malformed mode := by
  have fails : (∃ e, compile mode entries = .error e) ↔ ¬ ∃ m, compile mode entries = .ok m := by
    cases compile mode entries <;> simp
  -- the programs are small in the only case where that matters
  rw [fails, exists_compile_iff, and_iff_left_of_imp small]
  simp only [not_forall, not_not, exists_prop]

theorem compile_eq_error_iff (e : BuildError) : compile mode entries = .error e ↔
    ∃ i, e = .malformed i ∧ FirstMalformed mode entries i := by
  cases e with
  | malformed i => simp [compile_eq_malformed_iff]
  | tooLarge =>
    have notLarge : compile mode entries ≠ .error .tooLarge := fun tooLarge => by
      obtain ⟨wellFormed, large⟩ := compile_eq_tooLarge_iff.mp tooLarge
      rw [small wellFormed] at large
      contradiction
    simp [notLarge]

end Small

/-! ### Wrapped tokens -/

theorem fits_singleton {e : Regex} (small : ∀ reading, e.size reading ≤ 1000000) :
    fits mode [e] = true := by
  simp only [fits, List.all_eq_true, decide_eq_true_eq]
  intro reading _
  have bound := Regex.programSize_singleton_le reading (mode = .full) e
  have limit : sizeLimit = 10485760 := rfl
  have := small reading
  omega

/-- Any token can be wrapped as long as there are levels left. What that adds to the program is
far from its limit. -/
theorem compile_iterate_iff {wrap : Pattern → Pattern} {levels : Nat} (wraps : Wrapping wrap levels)
    (adds : 0 < levels) (n : Nat) (r : ρ) :
    (∃ m, compile mode [(wrap^[n] .any, r)] = .ok m) ↔ levels * n + 7 ≤ Pattern.nestingLimit := by
  -- five levels of the token itself, and two around the whole pattern
  have nesting : (wrap^[n] .any).nesting = levels * n + 7 := wraps.nesting_iterate .any n
  have bounded : (wrap^[n] .any).isBounded = true := wraps.isBounded_iterate .any n
  have wellFormed : (wrap^[n] .any).isWellFormed = true ↔ levels * n + 7 ≤ Pattern.nestingLimit := by
    rw [Pattern.isWellFormed, bounded, nesting, Bool.true_and, decide_eq_true_eq]
  have small (within : levels * n + 7 ≤ Pattern.nestingLimit) :
      fits mode [(wrap^[n] .any).regex] = true := by
    refine fits_singleton fun reading => ?_
    have first : Pattern.any.regex.size reading ≤ 5000 := by cases reading <;> decide
    have bound := (wraps.size_iterate_le (p := .any) rfl reading n).2
    -- the levels bound how often the token is wrapped, and so the bytes
    have often : n ≤ levels * n := Nat.le_mul_of_pos_left n adds
    have limit : Pattern.nestingLimit = 250 := rfl
    omega
  rw [exists_compile_iff, List.forall_mem_singleton, Pattern.not_malformed_iff, wellFormed]
  exact and_iff_left_of_imp small

/-! ### When a set of patterns does not compile -/

/-- If the programs of patterns are small enough once all are well formed, then it fails to compile
them exactly if one is malformed, and the error names the first such. That is the same in both modes.
To put the members of a sequence in its place changes no text, however deep the sequences stand in
one another, so they add no levels. A token can be wrapped as often as the levels allow. -/
theorem compile_error_iff (mode : MatchMode) (entries : List (Pattern × ρ))
    (small : (∀ entry ∈ entries, ¬ entry.1.Malformed mode) →
      fits mode (entries.map fun entry => entry.1.regex) = true) :
    ((∃ e, compile mode entries = .error e) ↔ ∃ entry ∈ entries, entry.1.Malformed mode) ∧
    (∀ e, compile mode entries = .error e ↔
      ∃ i, e = .malformed i ∧ FirstMalformed mode entries i) ∧
    (∀ p : Pattern, p.Malformed .full ↔ p.Malformed .leading) ∧
    (∀ (c : Pattern.Context) (p : Pattern),
      (c.fill p).source mode = (c.fill (.sequence p.rowMembers)).source mode ∧
        ∀ q ∈ p.rowMembers, ∀ qs, q ≠ .sequence qs) ∧
    (∀ (n : Nat) (r : ρ),
      ((∃ m, compile mode [(Pattern.optional^[n] .any, r)] = .ok m) ↔ n ≤ 121) ∧
      ((∃ m, compile mode [((Pattern.repeated · 1 none)^[n] .any, r)] = .ok m) ↔ n ≤ 121) ∧
      ((∃ m, compile mode [((fun p => Pattern.anyOf [p])^[n] .any, r)] = .ok m) ↔ n ≤ 243)) := by
  refine ⟨exists_error_iff small, compile_eq_error_iff small, ?_, ?_, ?_⟩
  · intro p
    rw [Pattern.malformed_iff, Pattern.malformed_iff]
  · intro c p
    -- what is interchangeable is so within any other pattern
    have same := Pattern.congruence_interchangeable.fill c (Pattern.interchangeable_rowMembers p)
    exact ⟨(same.source_eq mode).symm, p.ne_sequence_of_mem_rowMembers⟩
  · intro n r
    have limit : Pattern.nestingLimit = 250 := rfl
    refine ⟨?_, ?_, ?_⟩
    · rw [compile_iterate_iff wrapping_optional (by decide)]
      omega
    · rw [compile_iterate_iff wrapping_repeated (by decide)]
      omega
    · rw [compile_iterate_iff wrapping_anyOf (by decide)]
      omega

/-- A repetition that asks for more copies than it allows, and that is never taken. -/
def neverTaken : Pattern := .repeated (.repeated .any 2 (some 1)) 0 (some 0)

/-- Patterns that are all well formed. -/
def placeOrDate : List (Pattern × Nat) :=
  [(.anyOf [.headwords "place of birth", .headword "date"], 1),
    (.repeated (.optional (.tagged (.startsWith "NN"))) 2 (some 3), 2)]

/-- The limit of the programs matters for the second set only, and it is kept there. -/
theorem compile_error_iff_neverTaken :
    ((∀ entry ∈ [(Pattern.any, 1), (neverTaken, 2)], ¬ entry.1.Malformed .full) →
      fits .full ([(Pattern.any, 1), (neverTaken, 2)].map fun entry => entry.1.regex) = true) ∧
    compile .full [(Pattern.any, 1), (neverTaken, 2)] = .error (.malformed 1) ∧
    fits .leading (placeOrDate.map fun entry => entry.1.regex) = true ∧
    (∀ entry ∈ placeOrDate, ¬ entry.1.Malformed .leading) ∧
    ¬∃ e, compile .leading placeOrDate = .error e := by
  have malformed : neverTaken.Malformed .full :=
    Or.inl ⟨.any, 2, 1, List.mem_cons_of_mem _ List.mem_cons_self, by decide⟩
  have token : ¬ Pattern.any.Malformed .full := Pattern.not_malformed_iff.mpr (by decide)
  have small : (∀ entry ∈ [(Pattern.any, 1), (neverTaken, 2)], ¬ entry.1.Malformed .full) →
      fits .full ([(Pattern.any, 1), (neverTaken, 2)].map fun entry => entry.1.regex) = true :=
    fun none => absurd malformed (none (neverTaken, 2) (List.mem_cons_of_mem _ List.mem_cons_self))
  have within : fits .leading (placeOrDate.map fun entry => entry.1.regex) = true := by
    decide +kernel
  have none : ∀ entry ∈ placeOrDate, ¬ entry.1.Malformed .leading := by
    simp only [Pattern.not_malformed_iff]
    decide +kernel
  refine ⟨small, ((compile_error_iff .full _ small).2.1 (.malformed 1)).mpr ⟨1, rfl, ?_⟩, within,
    none, fun failed => ?_⟩
  · refine ⟨by decide, malformed, fun j earlier => ?_⟩
    obtain rfl : j = 0 := by omega
    exact token
  · obtain ⟨entry, inside, malformed⟩ :=
      (compile_error_iff .leading placeOrDate fun _ => within).1.mp failed
    exact none entry inside malformed

end Matcher

end PhraseGraph
