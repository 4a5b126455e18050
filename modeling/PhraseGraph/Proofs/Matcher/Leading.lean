import PhraseGraph.Proofs.Matcher.Full
import PhraseGraph.Proofs.Pattern.Rows

/-!
# PhraseGraph.Proofs.Matcher.Leading

What a compiled set of patterns reports for a leading part of a phrase.

## Main statements

`Matcher.hits_leading`: a matcher for leading parts reports every pattern that matches some leading
part, with the length of one, and which length that is.
-/

namespace PhraseGraph

/-- The number of leading tokens that a matcher reports for a pattern. -/
def Pattern.leadingLength? (p : Pattern) (ts : List Token) : Option Nat :=
  Matcher.coverage .leading ts (encode ts) p.regex

namespace Pattern

variable {p : Pattern} {ts : List Token}

theorem leadingLength?_eq (p : Pattern) (ts : List Token) :
    p.leadingLength? ts =
      (p.regex.matchLength? (encode ts)).map fun n => tokenCount ((encode ts).take n) := by
  -- the search whether there is a match decides nothing that the search for its length does not
  rw [leadingLength?, Matcher.coverage, ← Regex.isSome_matchLength?]
  cases p.regex.matchLength? (encode ts) <;> rfl

/-- The length in tokens is the length in characters up to the end of a token. -/
theorem leadingLength?_eq_some_iff (bounded : p.isBounded = true) {n : Nat} :
    p.leadingLength? ts = some n ↔
      n ≤ ts.length ∧ p.regex.matchLength? (encode ts) = some (offset ts n) := by
  rw [leadingLength?_eq, Option.map_eq_some_iff]
  constructor
  · rintro ⟨i, found, rfl⟩
    obtain ⟨within, matched⟩ := Regex.matchLength?_sound found
    obtain ⟨k, bound, start, -⟩ := take_mem_language bounded matched
    have tokens : tokenCount ((encode ts).take i) = k := by
      rw [start, tokenCount_encode, List.length_take, Nat.min_eq_left bound]
    have characters : offset ts k = i := by
      rw [offset, ← start, List.length_take, Nat.min_eq_left within]
    rw [tokens, characters]
    exact ⟨bound, found⟩
  · rintro ⟨bound, found⟩
    refine ⟨_, found, ?_⟩
    rw [take_offset, tokenCount_encode, List.length_take, Nat.min_eq_left bound]

theorem matchesStart_encode_iff (bounded : p.isBounded = true) :
    p.regex.matchesStart (encode ts) = true ↔ ∃ k ≤ ts.length, ts.take k ∈ p.language := by
  rw [Regex.matchesStart_iff]
  constructor
  · rintro ⟨n, -, matched⟩
    obtain ⟨k, bound, -, accepted⟩ := take_mem_language bounded matched
    exact ⟨k, bound, accepted⟩
  · rintro ⟨k, -, accepted⟩
    refine ⟨offset ts k, ?_, ?_⟩
    · exact offset_le ts k
    · rwa [take_offset, encode_mem_language bounded]

theorem isSome_leadingLength? (bounded : p.isBounded = true) :
    (p.leadingLength? ts).isSome ↔ ∃ k ≤ ts.length, ts.take k ∈ p.language := by
  rw [leadingLength?_eq, Option.isSome_map, Regex.isSome_matchLength?,
    matchesStart_encode_iff bounded]

theorem leadingLength?_sound (bounded : p.isBounded = true) {n : Nat}
    (found : p.leadingLength? ts = some n) : n ≤ ts.length ∧ ts.take n ∈ p.language := by
  obtain ⟨bound, reached⟩ := (leadingLength?_eq_some_iff bounded).mp found
  have matched := (Regex.matchLength?_sound reached).2
  rw [take_offset, encode_mem_language bounded] at matched
  exact ⟨bound, matched⟩

theorem leadingLength?_eq_head? (bounded : p.isBounded = true) (takes : p.RoundsTake) :
    p.leadingLength? ts =
      (p.regex.ways (encode ts)).head?.map fun n => tokenCount ((encode ts).take n) := by
  rw [leadingLength?_eq, Regex.matchLength?_eq_head? (roundsTake_regex p bounded takes)]

theorem leadingLength?_eq_head?_ways (bounded : p.isBounded = true) (takes : p.RoundsTake)
    (settled : p.SharesSettled) : p.leadingLength? ts = (p.ways ts).head? := by
  rw [leadingLength?_eq_head? bounded takes, (renders_ways p bounded settled ts).head?]
  cases first : p.ways ts with
  | nil => rfl
  | cons k others =>
    -- the text of the first `k` tokens ends as many tokens
    have member : k ∈ p.ways ts := first ▸ List.mem_cons_self
    have bound := ((matches_ways p bounded ts k).mp member).1
    rw [List.map_cons, List.head?_cons, Option.map_some, take_offset, tokenCount_encode,
      List.length_take, Nat.min_eq_left bound, List.head?_cons]

end Pattern

namespace Matcher

variable {ρ : Type} [DecidableEq ρ] {entries : List (Pattern × ρ)} {m : Matcher ρ}

/-- A matcher for leading parts reports a pattern if some leading part is in its language, with one
length: that of such a part. If rounds of endless repetitions take something, then it is the first
length in the order of backtracking of the expression that the pattern becomes; and of the pattern
itself, if it is settled where alternatives go on behind what they share, as it is where they share
nothing but characters and fields. -/
theorem hits_leading (compiled : compile .leading entries = .ok m) (ts : List Token) :
    m.hits ts = (entries.filterMap fun entry =>
        (entry.1.leadingLength? ts).map fun length => ⟨entry.2, length⟩).eraseDups ∧
      ∀ p r, (p, r) ∈ entries →
        ((p.leadingLength? ts).isSome ↔ ∃ k ≤ ts.length, ts.take k ∈ p.language) ∧
        (∀ full, compile .full [(p, r)] = .ok full →
          ((p.leadingLength? ts).isSome ↔ ∃ k ≤ ts.length, r ∈ full.results (ts.take k))) ∧
        (∀ n, p.leadingLength? ts = some n → n ≤ ts.length ∧ ts.take n ∈ p.language) ∧
        (p.RoundsTake → p.leadingLength? ts =
          (p.regex.ways (encode ts)).head?.map fun n => tokenCount ((encode ts).take n)) ∧
        (p.RoundsTake → p.SharesSettled → p.leadingLength? ts = (p.ways ts).head?) ∧
        (p.SharesPlainly → p.SharesSettled) := by
  refine ⟨hits_of_compile compiled ts, fun p r member => ?_⟩
  have bounded : p.isBounded = true := (of_compile compiled).2 _ member
  refine ⟨Pattern.isSome_leadingLength? bounded, fun full whole => ?_,
    fun n => Pattern.leadingLength?_sound bounded, Pattern.leadingLength?_eq_head? bounded,
    Pattern.leadingLength?_eq_head?_ways bounded, Pattern.SharesPlainly.settled⟩
  have single (us : List Token) : r ∈ full.results us ↔ us ∈ p.language := by
    rw [results_full whole, List.mem_eraseDups, mem_matching]
    simp
  simp only [Pattern.isSome_leadingLength? bounded, single]

/-! ### Alternatives that start alike -/

/-- Two alternatives that start with the same field: any tag will do. -/
def sharedField : Pattern :=
  .anyOf [.sequence [.headword "a", .optional .any], .headword "b"]

theorem sharesSettled_sharedField : sharedField.SharesSettled := by
  apply Pattern.SharesPlainly.settled
  intro ps inside
  have only : ps = [.sequence [.headword "a", .optional .any], .headword "b"] := by
    simpa [sharedField, Pattern.subpatterns, Pattern.subpatternsOfEach, Pattern.any,
      Pattern.headword] using inside
  subst only
  have flat : (Pattern.regexes [.sequence [.headword "a", .optional .any], .headword "b"]).flatMap
      Regex.branches = [(Pattern.sequence [.headword "a", .optional .any]).regex,
        (Pattern.headword "b").regex] := rfl
  refine .shared flat ?_ (.unshared (by decide))
  have count : Regex.sharedCount [(Pattern.sequence [.headword "a", .optional .any]).regex,
      (Pattern.headword "b").regex] = 1 := by decide
  intro part member
  rw [count] at member
  exact Or.inr (List.mem_singleton.mp member)

theorem hits_leading_sharedField :
    ∃ m, compile .leading [(sharedField, 7)] = .ok m ∧ sharedField.RoundsTake ∧
      sharedField.SharesSettled ∧ ⟨7, 2⟩ ∈ m.hits [⟨"a", "X", "a"⟩, ⟨"b", "X", "b"⟩] := by
  have compiled : compile .leading [(sharedField, 7)] =
      .ok ⟨.leading, [(sharedField.regex, 7)]⟩ := by
    have small : fits .leading [sharedField.regex] = true := by decide +kernel
    exact if_pos small
  have takes : sharedField.RoundsTake := by
    intro body least member
    simp [sharedField, Pattern.subpatterns, Pattern.subpatternsOfEach, Pattern.any,
      Pattern.headword] at member
  obtain ⟨reported, each⟩ := hits_leading compiled [⟨"a", "X", "a"⟩, ⟨"b", "X", "b"⟩]
  obtain ⟨-, -, -, -, inOrder, -⟩ := each _ _ (List.mem_singleton_self _)
  have length := inOrder takes sharesSettled_sharedField
  have first : (sharedField.ways [⟨"a", "X", "a"⟩, ⟨"b", "X", "b"⟩]).head? = some 2 := by decide
  refine ⟨_, compiled, takes, sharesSettled_sharedField, ?_⟩
  rw [reported]
  simp [length, first]

/-- Two alternatives that start with the same optional token. -/
def sharedOption : Pattern :=
  .anyOf [.sequence [.optional .any, .headword "a"], .sequence [.optional .any, .headword "b"]]

/-- The expression tries the optional token for both alternatives before it tries to do without;
the pattern tries its first alternative without the token before it tries the second one. -/
theorem hits_leading_sharedOption :
    ∃ m, compile .leading [(sharedOption, "r")] = .ok m ∧ sharedOption.RoundsTake ∧
      m.hits [⟨"x", "X", "a"⟩, ⟨"x", "X", "b"⟩] = [⟨"r", 2⟩] ∧
      (sharedOption.ways [⟨"x", "X", "a"⟩, ⟨"x", "X", "b"⟩]).head? = some 1 := by
  have compiled : compile .leading [(sharedOption, "r")] =
      .ok ⟨.leading, [(sharedOption.regex, "r")]⟩ := by
    have small : fits .leading [sharedOption.regex] = true := by decide +kernel
    exact if_pos small
  refine ⟨_, compiled, ?_, by decide +kernel, by decide⟩
  intro body least member
  simp [sharedOption, Pattern.subpatterns, Pattern.subpatternsOfEach, Pattern.any,
    Pattern.headword] at member

end Matcher

end PhraseGraph
