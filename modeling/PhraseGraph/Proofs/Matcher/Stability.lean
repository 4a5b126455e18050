import PhraseGraph.Proofs.Matcher.Leading

/-!
# PhraseGraph.Proofs.Matcher.Stability

What is matched at the start of a phrase does not depend on the tokens behind it.

The preferred match may be a long one that would fail if the phrase were shorter, or a short one
because a longer one fails. So a phrase that is cut off behind the match keeps it, while a phrase
that goes on can have a longer one; but then it takes some of the tokens that have been added.

## Main statements

`Matcher.hits_stable`: matches of leading parts in phrases that are cut off or go on.
-/

namespace PhraseGraph

namespace Pattern

variable {p : Pattern} {ts : List Token} {n : Nat}

/-- A phrase that is cut off behind the match has the same match. -/
theorem leadingLength?_take (bounded : p.isBounded = true) (found : p.leadingLength? ts = some n)
    {k : Nat} (reached : n ≤ k) : p.leadingLength? (ts.take k) = some n := by
  rw [leadingLength?_eq_some_iff bounded] at found ⊢
  obtain ⟨bound, found⟩ := found
  have same : offset (ts.take k) n = offset ts n := by
    rw [offset, offset, List.take_take, Nat.min_eq_left reached]
  rw [same, ← take_offset, List.length_take]
  exact ⟨Nat.le_min.mpr ⟨reached, bound⟩, Regex.matchLength?_take found (offset_mono ts reached)⟩

/-- A phrase that goes on has the same match, or one that takes some of the tokens added to it. -/
theorem leadingLength?_append (bounded : p.isBounded = true) (found : p.leadingLength? ts = some n)
    (us : List Token) : ∃ l, p.leadingLength? (ts ++ us) = some l ∧ (l = n ∨ ts.length < l) := by
  obtain ⟨bound, accepted⟩ := leadingLength?_sound bounded found
  have matches_more : (p.leadingLength? (ts ++ us)).isSome := by
    refine (isSome_leadingLength? bounded).mpr ⟨n, ?_, ?_⟩
    · exact bound.trans (by simp)
    · rwa [List.take_append_of_le_length bound]
  obtain ⟨l, longer⟩ := Option.isSome_iff_exists.mp matches_more
  refine ⟨l, longer, or_iff_not_imp_right.mpr fun within => ?_⟩
  -- a match that takes none of them is also there without them
  have without := leadingLength?_take bounded longer (not_lt.mp within)
  rw [List.take_left, found] at without
  exact (Option.some.inj without).symm

end Pattern

namespace Matcher

variable {ρ : Type} [DecidableEq ρ] {entries : List (Pattern × ρ)} {m : Matcher ρ}

/-- A matcher for leading parts reports an entry with the length that its pattern matches. As long
as the phrase is not cut off before its end, the match stays as it is; and if the phrase goes on, it
stays or becomes one that is longer than the phrase was. -/
theorem hits_stable (compiled : compile .leading entries = .ok m) :
    (∀ ts hit, hit ∈ m.hits ts ↔
      ∃ p, (p, hit.result) ∈ entries ∧ p.leadingLength? ts = some hit.length) ∧
    ∀ p r, (p, r) ∈ entries → ∀ ts n, p.leadingLength? ts = some n →
      (∀ k, n ≤ k → k ≤ ts.length → p.leadingLength? (ts.take k) = some n) ∧
      ∀ us, ∃ l, p.leadingLength? (ts ++ us) = some l ∧ (l = n ∨ ts.length < l) := by
  refine ⟨fun ts hit => ?_, fun p r member ts n found => ?_⟩
  · rw [hits_of_compile compiled, List.mem_eraseDups, List.mem_filterMap]
    constructor
    · rintro ⟨⟨p, r⟩, member, reported⟩
      obtain ⟨n, found, rfl⟩ := Option.map_eq_some_iff.mp reported
      exact ⟨p, member, found⟩
    · rintro ⟨p, member, found⟩
      exact ⟨_, member, Option.map_eq_some_iff.mpr ⟨_, found, rfl⟩⟩
  · have bounded : p.isBounded = true := (of_compile compiled).2 _ member
    exact ⟨fun k reached _ => Pattern.leadingLength?_take bounded found reached,
      Pattern.leadingLength?_append bounded found⟩

/-- Two tokens, or as many of the first one as there are, each of which may be left out. -/
def pairOrRun : Pattern :=
  .anyOf [.sequence [.headword "a", .headword "b"], .repeated (.optional (.headword "a")) 0 none]

/-- A match of the second alternative stays, unless the next token completes the first one. -/
theorem hits_stable_pairOrRun :
    ∃ m, compile .leading [(pairOrRun, 7)] = .ok m ∧
      pairOrRun.leadingLength? [⟨"a", "X", "a"⟩, ⟨"c", "X", "c"⟩] = some 1 ∧
      pairOrRun.leadingLength? [⟨"a", "X", "a"⟩] = some 1 ∧
      ∃ l, pairOrRun.leadingLength? [⟨"a", "X", "a"⟩, ⟨"b", "X", "b"⟩] = some l ∧ 1 < l := by
  have compiled : compile .leading [(pairOrRun, 7)] =
      .ok ⟨.leading, [(pairOrRun.regex, 7)]⟩ := by
    have small : fits .leading [pairOrRun.regex] = true := by decide +kernel
    exact if_pos small
  obtain ⟨-, stable⟩ := hits_stable compiled
  have stable := stable _ _ (List.mem_singleton_self _)
  have found : pairOrRun.leadingLength? [⟨"a", "X", "a"⟩, ⟨"c", "X", "c"⟩] = some 1 := by
    decide +kernel
  have short := (stable _ _ found).1 1 le_rfl (by decide)
  obtain ⟨l, longer, same | more⟩ := (stable _ _ short).2 [⟨"b", "X", "b"⟩]
  · have pair : pairOrRun.leadingLength? [⟨"a", "X", "a"⟩, ⟨"b", "X", "b"⟩] = some 2 := by
      decide +kernel
    cases pair.symm.trans longer
    cases same
  · exact ⟨_, compiled, found, short, l, longer, more⟩

end Matcher

end PhraseGraph
