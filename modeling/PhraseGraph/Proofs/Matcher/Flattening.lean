import PhraseGraph.Proofs.Matcher.Leading
import PhraseGraph.Proofs.Pattern.Flattening

/-!
# PhraseGraph.Proofs.Matcher.Flattening

What is matched by patterns from builders: sequences, alternatives and phrases of words in which
members of the same kind have been opened.

## Main statements

`Matcher.hits_flattened`: what a matcher reports for built patterns and for plain ones, wherever
they stand.
-/

namespace PhraseGraph

open Pattern

namespace Matcher

variable {ρ : Type} {mode : MatchMode} {p q : Pattern} {ts : List Token}

/-! ### Patterns in the place of others -/

theorem compile_congr (wellFormed_eq : p.isWellFormed = q.isWellFormed)
    (regex_eq : p.regex = q.regex) (before after : List (Pattern × ρ)) (r : ρ) :
    compile mode (before ++ (p, r) :: after) = compile mode (before ++ (q, r) :: after) := by
  have form : (before ++ (p, r) :: after).findIdx? (fun entry => !entry.1.isWellFormed) =
      (before ++ (q, r) :: after).findIdx? fun entry => !entry.1.isWellFormed := by
    simp only [List.findIdx?_append, List.findIdx?_cons, wellFormed_eq]
  have compiled : (before ++ (p, r) :: after).map (fun entry => (entry.1.regex, entry.2)) =
      (before ++ (q, r) :: after).map fun entry => (entry.1.regex, entry.2) := by
    simp only [List.map_append, List.map_cons, regex_eq]
  rw [compile, compile, form, compiled]

/-- Patterns with the same language cover something in the same cases. -/
theorem isSome_coverage_congr (bounded : p.isBounded = true) (bounded' : q.isBounded = true)
    (same : p.language = q.language) :
    (coverage mode ts (encode ts) p.regex).isSome =
      (coverage mode ts (encode ts) q.regex).isSome := by
  cases mode with
  | full => rw [coverage_full bounded, coverage_full bounded', same]
  | leading =>
    rw [Bool.eq_iff_iff]
    refine (isSome_leadingLength? bounded).trans (.trans ?_ (isSome_leadingLength? bounded').symm)
    rw [same]

variable {entries before after : List (Pattern × ρ)} {r : ρ} {m n : Matcher ρ}

theorem isBounded_of_compile (compiled : compile mode (before ++ (p, r) :: after) = .ok m) :
    p.isBounded = true :=
  (of_compile compiled).2 (p, r) (List.mem_append_right _ List.mem_cons_self)

variable [DecidableEq ρ]

theorem results_of_compile (compiled : compile mode entries = .ok m) (ts : List Token) :
    m.results ts = ((entries.filter fun entry =>
      (coverage mode ts (encode ts) entry.1.regex).isSome).map (·.2)).eraseDups := by
  rw [results, hits_of_compile compiled, eraseDups_map_eraseDups, List.map_filterMap]
  congr 1
  clear compiled
  -- an entry that covers nothing has no result in either list
  induction entries with
  | nil => rfl
  | cons entry entries ih =>
    rw [List.filterMap_cons, ih, List.filter_cons]
    cases coverage mode ts (encode ts) entry.1.regex <;> rfl

section Exchange

variable (compiled : compile mode (before ++ (p, r) :: after) = .ok m)
  (compiled' : compile mode (before ++ (q, r) :: after) = .ok n)

include compiled compiled'

theorem hits_exchange
    (same : coverage mode ts (encode ts) p.regex = coverage mode ts (encode ts) q.regex) :
    m.hits ts = n.hits ts := by
  rw [hits_of_compile compiled, hits_of_compile compiled', List.filterMap_append,
    List.filterMap_append, List.filterMap_cons, List.filterMap_cons, same]

theorem results_exchange (same : p.language = q.language) : m.results ts = n.results ts := by
  have alike : (coverage mode ts (encode ts) p.regex).isSome =
      (coverage mode ts (encode ts) q.regex).isSome :=
    isSome_coverage_congr (isBounded_of_compile compiled) (isBounded_of_compile compiled') same
  rw [results_of_compile compiled, results_of_compile compiled', List.filter_append,
    List.filter_append, List.filter_cons, List.filter_cons, alike, List.map_append, List.map_append]
  split <;> rfl

end Exchange

theorem hits_exchange_full (compiled : compile .full (before ++ (p, r) :: after) = .ok m)
    (compiled' : compile .full (before ++ (q, r) :: after) = .ok n)
    (same : p.language = q.language) : m.hits ts = n.hits ts := by
  apply hits_exchange compiled compiled'
  rw [coverage_full (isBounded_of_compile compiled), coverage_full (isBounded_of_compile compiled'),
    same]

theorem hits_exchange_leading (compiled : compile .leading (before ++ (p, r) :: after) = .ok m)
    (compiled' : compile .leading (before ++ (q, r) :: after) = .ok n) (takes : p.RoundsTake)
    (takes' : q.RoundsTake) (same : SameWays p.regex.ways q.regex.ways) : m.hits ts = n.hits ts := by
  apply hits_exchange compiled compiled'
  change p.leadingLength? ts = q.leadingLength? ts
  rw [leadingLength?_eq_head? (isBounded_of_compile compiled) takes,
    leadingLength?_eq_head? (isBounded_of_compile compiled') takes', (same (encode ts)).head?]

/-! ### Built patterns -/

theorem hits_oneOf {c : Context} {ps : List Pattern}
    (compiled : compile mode (before ++ (c.fill (oneOf ps), r) :: after) = .ok m)
    (compiled' : compile mode (before ++ (c.fill (.anyOf ps), r) :: after) = .ok n)
    (alike : mode = .full ∨ (oneOf ps).regex = (anyOf ps).regex ∨ c.KeepsOrder ps) :
    m.hits ts = n.hits ts := by
  have language_eq := congruence_language.fill c (language_oneOf ps)
  rcases alike with rfl | same | keeps
  · exact hits_exchange_full compiled compiled' language_eq
  · apply hits_exchange compiled compiled'
    rw [congruence_regex.fill c same]
  · cases mode with
    | full => exact hits_exchange_full compiled compiled' language_eq
    | leading =>
      exact hits_exchange_leading compiled compiled' keeps.rounds_built keeps.rounds
        (keeps.sameWays (isBounded_of_compile compiled) (isBounded_of_compile compiled'))

omit [DecidableEq ρ] in
/-- What can go wrong with a phrase of words is that its program becomes too large. -/
theorem compile_headwords {phrase : String} {e : BuildError}
    (failed : compile mode [(headwords phrase, r)] = .error e) : e = .tooLarge := by
  have form : [(headwords phrase, r)].findIdx? (fun entry => !entry.1.isWellFormed) = none := by
    simp [isWellFormed_headwords]
  rw [compile, form] at failed
  dsimp only at failed
  split at failed
  · cases failed
  · cases failed
    rfl

theorem hits_headwords {phrase : String} (compiled : compile .full [(headwords phrase, r)] = .ok m)
    (ts : List Token) : m.hits ts =
      if ts.map (fun t => stripped t.headword) = (phraseWords phrase).map stripped then
        [⟨r, ts.length⟩]
      else [] := by
  have bounded : (headwords phrase).isBounded = true :=
    (of_compile compiled).2 _ (List.mem_singleton_self _)
  rw [hits_of_compile compiled, List.filterMap_cons, List.filterMap_nil, coverage_full bounded]
  by_cases accepted : ts ∈ (headwords phrase).language
  · rw [if_pos accepted, if_pos (mem_language_headwords.mp accepted)]
    rfl
  · rw [if_neg accepted, if_neg (mt mem_language_headwords.mpr accepted)]
    rfl

/-- Built patterns, wherever they stand. A sequence is written like a plain one and compiles to the
same. Alternatives, if they compile, have the results of plain ones, and the same lengths in all of
a phrase; in a leading part of it they have them if they become the same expression, as they do
where nothing was taken out of those that are opened, or else if they are tried in the same order.
Phrases share nothing but characters and fields, which settle where alternatives go on. A phrase of
words takes the place of any pattern that matches the tokens with these headwords. -/
theorem hits_flattened (mode : MatchMode) (c : Context) (before after : List (Pattern × ρ)) (r : ρ)
    (ps : List Pattern) :
    ((c.fill (inOrder ps)).source mode = (c.fill (.sequence ps)).source mode ∧
      compile mode (before ++ (c.fill (inOrder ps), r) :: after) =
        compile mode (before ++ (c.fill (.sequence ps), r) :: after)) ∧
    (∀ m n, compile mode (before ++ (c.fill (oneOf ps), r) :: after) = .ok m →
      compile mode (before ++ (c.fill (.anyOf ps), r) :: after) = .ok n →
      ∀ ts, m.results ts = n.results ts ∧
        (mode = .full ∨ (oneOf ps).regex = (anyOf ps).regex ∨ c.KeepsOrder ps →
          m.hits ts = n.hits ts)) ∧
    (NothingShared ps → (oneOf ps).regex = (anyOf ps).regex) ∧
    (∀ qs, ((∀ q ∈ qs, q.IsPhrase) → Regex.SharesPlainly (regexes qs)) ∧
      (Regex.SharesPlainly (regexes qs) → Regex.SharesSettled (regexes qs))) ∧
    ∀ phrase, (∀ e, compile .full [(headwords phrase, r)] = .error e → e = .tooLarge) ∧
      (∀ m, compile .full [(headwords phrase, r)] = .ok m → ∀ ts, m.hits ts =
        if ts.map (fun t => stripped t.headword) = (phraseWords phrase).map stripped then
          [⟨r, ts.length⟩]
        else []) ∧
      ∀ q : Pattern, (∀ ts, ts ∈ q.language ↔
          ts.map (fun t => stripped t.headword) = (phraseWords phrase).map stripped) →
        ∀ m n, compile .full (before ++ (c.fill (headwords phrase), r) :: after) = .ok m →
          compile .full (before ++ (c.fill q, r) :: after) = .ok n →
          ∀ ts, m.hits ts = n.hits ts := by
  have sequences := congruence_interchangeable.fill c (interchangeable_inOrder ps)
  refine ⟨⟨sequences.source_eq mode,
      compile_congr sequences.isWellFormed_eq sequences.regex_eq before after r⟩,
    fun m n compiled compiled' ts => ⟨?_, hits_oneOf compiled compiled'⟩, regex_oneOf,
    fun qs => ⟨sharesPlainly_of_phrases, Regex.sharesSettled_of_plain (Regex.isTidy_regexes qs)⟩,
    fun phrase => ⟨fun e => compile_headwords, fun m => hits_headwords,
      fun q matches_words m n compiled compiled' ts => ?_⟩⟩
  · exact results_exchange compiled compiled' (congruence_language.fill c (language_oneOf ps))
  · apply hits_exchange_full compiled compiled'
    apply congruence_language.fill c
    ext us
    rw [mem_language_headwords, matches_words]

/-- Tokens with one of two headwords, which start with any tag, or with a tag. -/
def headwordOrNoun : List Pattern :=
  [.anyOf [.headword "a", .headword "b"], .tagged (.exact "NN")]

theorem keepsOrder_headwordOrNoun :
    (Context.repeated .hole 1 none).KeepsOrder headwordOrNoun where
  rounds := by
    refine roundsTake_repeated.mpr ⟨fun _ => ?_, ?_⟩
    · have some (t : TokenPattern) : [] ∉ (Pattern.token t).language := by
        rw [language]
        rintro ⟨_, -, impossible⟩
        cases impossible
      simp [headwordOrNoun, Context.fill, language_anyOf, headword, tagged, some, Language.mem_add]
    · intro body least inside
      simp [headwordOrNoun, Context.fill, subpatterns, subpatternsOfEach, headword, tagged]
        at inside
  opens := by
    have settled {qs : List Pattern} (phrases : ∀ q ∈ qs, q.IsPhrase) :
        Regex.SharesSettled (regexes qs) :=
      Regex.sharesSettled_of_plain (Regex.isTidy_regexes qs) (sharesPlainly_of_phrases phrases)
    refine ⟨.unshared (by decide +kernel), settled ?_, fun qs inside => settled ?_⟩
    · simp [headwordOrNoun, anyOfMembers, headword, tagged, IsPhrase.token]
    · obtain rfl : qs = [.headword "a", .headword "b"] := by
        simpa [headwordOrNoun, tagged] using inside
      simp [headword, IsPhrase.token]
  built := trivial
  plain := trivial

/-- The choice takes what its alternatives share out of them in one case only. -/
theorem hits_flattened_headwordOrNoun : ∃ m n,
    compile .leading [((Context.repeated .hole 1 none).fill (oneOf headwordOrNoun), 7)] = .ok m ∧
    compile .leading [((Context.repeated .hole 1 none).fill (.anyOf headwordOrNoun), 7)] = .ok n ∧
    (oneOf headwordOrNoun).regex ≠ (anyOf headwordOrNoun).regex ∧
    m.hits [⟨"x", "X", "b"⟩, ⟨"x", "NN", "x"⟩, ⟨"x", "X", "x"⟩] = [⟨7, 2⟩] ∧
    n.hits [⟨"x", "X", "b"⟩, ⟨"x", "NN", "x"⟩, ⟨"x", "X", "x"⟩] = [⟨7, 2⟩] := by
  obtain ⟨-, alternatives, -⟩ :=
    hits_flattened .leading (.repeated .hole 1 none) [] [] 7 headwordOrNoun
  have built : compile .leading
      [((Context.repeated .hole 1 none).fill (oneOf headwordOrNoun), 7)] = .ok ⟨.leading,
        [(((Context.repeated .hole 1 none).fill (oneOf headwordOrNoun)).regex, 7)]⟩ :=
    if_pos (by decide +kernel)
  have plain : compile .leading
      [((Context.repeated .hole 1 none).fill (.anyOf headwordOrNoun), 7)] = .ok ⟨.leading,
        [(((Context.repeated .hole 1 none).fill (.anyOf headwordOrNoun)).regex, 7)]⟩ :=
    if_pos (by decide +kernel)
  have same := (alternatives _ _ built plain [⟨"x", "X", "b"⟩, ⟨"x", "NN", "x"⟩, ⟨"x", "X", "x"⟩]).2
    (Or.inr (Or.inr keepsOrder_headwordOrNoun))
  refine ⟨_, _, built, plain, by decide +kernel, ?_, ?_⟩
  · decide +kernel
  · rw [← same]
    decide +kernel

/-- Alternatives that start with the same optional token are tried with it before any of them is
tried without it, but only if they are alternatives on their own. -/
theorem hits_oneOf_sharedOption : ∃ m, compile .leading
      [(.anyOf [sharedOption, .headword "c"], "plain"),
        (oneOf [sharedOption, .headword "c"], "open")] = .ok m ∧
    m.hits [⟨"x", "X", "a"⟩, ⟨"x", "X", "b"⟩] = [⟨"plain", 2⟩, ⟨"open", 1⟩] :=
  ⟨_, if_pos (by decide +kernel), by decide +kernel⟩

end Matcher

end PhraseGraph
