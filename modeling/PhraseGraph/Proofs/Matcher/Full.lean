import PhraseGraph.Proofs.FirstOccurrences
import PhraseGraph.Proofs.Pattern.Language
import PhraseGraph.Proofs.Regex.Search
import PhraseGraph.Matcher

/-!
# PhraseGraph.Proofs.Matcher.Full

What a compiled set of patterns reports for all of a phrase.

## Main statements

`Matcher.mem_results_full_iff`: a matcher for whole phrases reports exactly the results of those
patterns whose language contains the phrase. `Matcher.results_full` says in which order.
-/

namespace PhraseGraph.Matcher

variable {ρ : Type} {mode : MatchMode} {entries : List (Pattern × ρ)} {m : Matcher ρ}

/-- A set compiles if all of its patterns are well formed and their programs are small enough. -/
theorem compile_eq_ok_iff : compile mode entries = .ok m ↔
    m = ⟨mode, entries.map fun entry => (entry.1.regex, entry.2)⟩ ∧
      (∀ entry ∈ entries, entry.1.isWellFormed = true) ∧
      fits mode (entries.map fun entry => entry.1.regex) = true := by
  unfold compile
  split
  · next index found =>
    obtain ⟨inside, malformed, -⟩ := List.findIdx?_eq_some_iff_getElem.mp found
    constructor
    · rintro ⟨⟩
    · rintro ⟨-, wellFormed, -⟩
      simp [wellFormed _ (List.getElem_mem inside)] at malformed
  · next none =>
    have wellFormed : ∀ entry ∈ entries, entry.1.isWellFormed = true := by
      simpa using List.findIdx?_eq_none_iff.mp none
    simp only [List.map_map, Function.comp_def]
    split
    · next small =>
      constructor
      · rintro ⟨⟩
        exact ⟨rfl, wellFormed, small⟩
      · rintro ⟨rfl, -, -⟩
        rfl
    · next large =>
      constructor
      · rintro ⟨⟩
      · rintro ⟨-, -, small⟩
        exact absurd small large

/-- What compiles is kept in order, and its repetitions can end. -/
theorem of_compile (compiled : compile mode entries = .ok m) :
    m = ⟨mode, entries.map fun entry => (entry.1.regex, entry.2)⟩ ∧
      ∀ entry ∈ entries, entry.1.isBounded = true := by
  obtain ⟨kept, wellFormed, -⟩ := compile_eq_ok_iff.mp compiled
  refine ⟨kept, fun entry member => ?_⟩
  have accepted := wellFormed entry member
  rw [Pattern.isWellFormed, Bool.and_eq_true] at accepted
  exact accepted.1

open Classical in
/-- The results of the patterns whose language contains the tokens, in order of declaration. -/
noncomputable def matching (entries : List (Pattern × ρ)) (ts : List Token) : List ρ :=
  (entries.filter fun entry => ts ∈ entry.1.language).map (·.2)

theorem mem_matching {ts : List Token} {r : ρ} :
    r ∈ matching entries ts ↔ ∃ p, (p, r) ∈ entries ∧ ts ∈ p.language := by
  classical
  simp only [matching, List.mem_map, List.mem_filter, decide_eq_true_eq]
  constructor
  · rintro ⟨⟨p, r⟩, ⟨member, accepted⟩, rfl⟩
    exact ⟨p, member, accepted⟩
  · rintro ⟨p, member, accepted⟩
    exact ⟨(p, r), ⟨member, accepted⟩, rfl⟩

variable [DecidableEq ρ]

theorem hits_of_compile (compiled : compile mode entries = .ok m) (ts : List Token) :
    m.hits ts = (entries.filterMap fun entry =>
      (coverage mode ts (encode ts) entry.1.regex).map fun length => ⟨entry.2, length⟩).eraseDups := by
  obtain ⟨rfl, -⟩ := of_compile compiled
  rw [hits, List.filterMap_map]
  rfl

/-! ### Whole phrases -/

open Classical in
theorem coverage_full {p : Pattern} (bounded : p.isBounded = true) (ts : List Token) :
    coverage .full ts (encode ts) p.regex = if ts ∈ p.language then some ts.length else none := by
  simp only [coverage, Regex.matchesWhole_iff, encode_mem_language bounded]

theorem hits_full (compiled : compile .full entries = .ok m) (ts : List Token) :
    m.hits ts = ((matching entries ts).map fun r => ⟨r, ts.length⟩).eraseDups := by
  classical
  have bounded := (of_compile compiled).2
  rw [hits_of_compile compiled, matching, List.map_map]
  congr 1
  clear compiled
  -- an entry is kept by both lists or by neither
  induction entries with
  | nil => rfl
  | cons entry entries ih =>
    have rest := ih fun other later => bounded other (List.mem_cons_of_mem entry later)
    rw [List.filterMap_cons, coverage_full (bounded entry List.mem_cons_self), rest]
    by_cases accepted : ts ∈ entry.1.language
    · simp [accepted]
    · simp [accepted]

/-- The results in order of declaration, each once. -/
theorem results_full (compiled : compile .full entries = .ok m) (ts : List Token) :
    m.results ts = (matching entries ts).eraseDups := by
  rw [results, hits_full compiled, eraseDups_map_eraseDups, List.map_map]
  simp [Function.comp_def]

/-- A matcher for whole phrases reports a result if some pattern with this result matches the
phrase, and everything it reports covers the whole phrase. -/
theorem mem_results_full_iff (compiled : compile .full entries = .ok m) (ts : List Token) :
    (∀ r, r ∈ m.results ts ↔ ∃ p, (p, r) ∈ entries ∧ ts ∈ p.language) ∧
      ∀ hit ∈ m.hits ts, hit.length = ts.length := by
  constructor
  · intro r
    rw [results_full compiled, List.mem_eraseDups, mem_matching]
  · intro hit member
    rw [hits_full compiled, List.mem_eraseDups] at member
    obtain ⟨r, -, rfl⟩ := List.mem_map.mp member
    rfl

/-- Any token or none, then tokens with a headword that is no expression of its own. -/
def anyThenRepeated : Pattern := .sequence [.optional .any, .repeated (.headword "a+") 1 none]

theorem mem_results_full_repetition :
    ∃ m, compile .full [(anyThenRepeated, 7)] = .ok m ∧
      7 ∈ m.results [⟨"the", "DT", "the"⟩, ⟨"a+", "NN", "a+"⟩] := by
  have compiled : compile .full [(anyThenRepeated, 7)] =
      .ok ⟨.full, [(anyThenRepeated.regex, 7)]⟩ := by rfl
  have skipped : [(⟨"the", "DT", "the"⟩ : Token)] ∈ (Pattern.optional .any).language := by
    rw [Pattern.language]
    exact Or.inl ⟨_, by decide, rfl⟩
  have named : [(⟨"a+", "NN", "a+"⟩ : Token)] ∈
      (Pattern.repeated (.headword "a+") 1 none).language := by
    rw [Pattern.language]
    refine ⟨1, le_rfl, by simp, ?_⟩
    rw [pow_one]
    exact ⟨_, by decide, rfl⟩
  have both : [⟨"the", "DT", "the"⟩, ⟨"a+", "NN", "a+"⟩] ∈ anyThenRepeated.language := by
    rw [anyThenRepeated, Pattern.language, Pattern.languages_eq_map]
    simpa using Language.append_mem_mul skipped named
  refine ⟨_, compiled, ?_⟩
  apply ((mem_results_full_iff compiled _).1 7).mpr
  exact ⟨anyThenRepeated, List.mem_singleton_self _, both⟩

end PhraseGraph.Matcher
