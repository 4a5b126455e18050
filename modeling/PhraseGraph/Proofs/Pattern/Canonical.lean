import PhraseGraph.Proofs.Grouping
import PhraseGraph.Proofs.Pattern.Contexts

/-!
# PhraseGraph.Proofs.Pattern.Canonical

The form of patterns that are put together by the builders alone.

A builder opens what it is given one level. That is enough to keep sequences and alternatives flat at
every place, since the members were flat before. On patterns of this form the builders behave like
concatenation of lists. Patterns that the constructors make need not have it, and then it may matter
in which steps they are put together.

## Main statements

`Pattern.isBuilt_iff`: the patterns that the builders make are the canonical ones.
`Pattern.built_laws`: associativity, identity, and patterns that are put together one by one.
-/

namespace PhraseGraph

namespace Pattern

/-- Patterns that are made by builders, from patterns that are. -/
inductive IsBuilt : Pattern → Prop
  | any : IsBuilt Pattern.any
  | headword (text : String) : IsBuilt (Pattern.headword text)
  | headwordTagged (text : String) (tag : TagCondition) : IsBuilt (Pattern.headwordTagged text tag)
  | tagged (tag : TagCondition) : IsBuilt (Pattern.tagged tag)
  | headwords (phrase : String) : IsBuilt (Pattern.headwords phrase)
  | inOrder {ps : List Pattern} : (∀ p ∈ ps, IsBuilt p) → IsBuilt (Pattern.inOrder ps)
  | oneOf {ps : List Pattern} : (∀ p ∈ ps, IsBuilt p) → IsBuilt (Pattern.oneOf ps)
  | optional {p : Pattern} : IsBuilt p → IsBuilt (Pattern.optional p)
  | repeated {p : Pattern} (least : Nat) (most : Option Nat) : IsBuilt p →
    IsBuilt (Pattern.repeated p least most)
  | followedBy {p q : Pattern} : IsBuilt p → IsBuilt q → IsBuilt (Pattern.followedBy p q)

/-- At every place in the pattern a sequence has no sequence as a member and does not have a single
member, and the same holds of alternatives. -/
structure IsCanonical (p : Pattern) : Prop where
  sequences : ∀ qs, .sequence qs ∈ p.subpatterns →
    qs.length ≠ 1 ∧ ∀ q ∈ qs, ∀ rs, q ≠ .sequence rs
  choices : ∀ qs, .anyOf qs ∈ p.subpatterns →
    qs.length ≠ 1 ∧ ∀ q ∈ qs, ∀ rs, q ≠ .anyOf rs

/-! ### Sequences and alternatives as groups -/

variable {p : Pattern} {ps : List Pattern}

theorem sequenceMembers_of_ne (other : ∀ ps, p ≠ .sequence ps) : p.sequenceMembers = [p] := by
  cases p with
  | sequence ps => exact absurd rfl (other ps)
  | _ => rfl

theorem anyOfMembers_of_ne (other : ∀ ps, p ≠ .anyOf ps) : p.anyOfMembers = [p] := by
  cases p with
  | anyOf ps => exact absurd rfl (other ps)
  | _ => rfl

/-- What puts patterns together: they stand in a row, or there is a choice among them. -/
inductive Arrangement where
  | row
  | choice

def Arrangement.grouping : Arrangement → Grouping Pattern
  | .row => ⟨.sequence, sequenceMembers, fun _ => rfl, sequenceMembers_of_ne⟩
  | .choice => ⟨.anyOf, anyOfMembers, fun _ => rfl, anyOfMembers_of_ne⟩

open Arrangement (grouping)

variable {k : Arrangement}

theorem gather_row (ps : List Pattern) : (grouping .row).gather ps = inOrder ps := by
  -- both look at whether one member is left, each with a match of its own
  change (grouping .row).close (ps.flatMap sequenceMembers) = _
  rw [inOrder]
  rcases ps.flatMap sequenceMembers with _ | ⟨p, _ | ⟨q, qs⟩⟩ <;> rfl

theorem gather_choice (ps : List Pattern) : (grouping .choice).gather ps = oneOf ps := by
  change (grouping .choice).close (ps.flatMap anyOfMembers) = _
  rw [oneOf]
  rcases ps.flatMap anyOfMembers with _ | ⟨p, _ | ⟨q, qs⟩⟩ <;> rfl

theorem isCanonical_iff_isFlat :
    p.IsCanonical ↔ ∀ k : Arrangement, ∀ q ∈ p.subpatterns, k.grouping.IsFlat q := by
  constructor
  · rintro ⟨sequences, choices⟩ k q inside qs rfl
    cases k with
    | row => exact sequences qs inside
    | choice => exact choices qs inside
  · intro flat
    exact ⟨fun qs inside => flat .row _ inside qs rfl,
      fun qs inside => flat .choice _ inside qs rfl⟩

theorem IsCanonical.isFlat (canonical : p.IsCanonical) (k : Arrangement) : k.grouping.IsFlat p :=
  isCanonical_iff_isFlat.mp canonical k p (self_mem_subpatterns p)

/-! ### One case for each constructor -/

theorem subpatterns_group (k : Arrangement) (ps : List Pattern) :
    (k.grouping.group ps).subpatterns = k.grouping.group ps :: subpatternsOfEach ps := by
  cases k <;> rfl

/-- A sequence is not a choice, nor the other way round, so it is flat if it is flat as what it is. -/
theorem isFlat_group_of_self (flat : k.grouping.IsFlat (k.grouping.group ps)) (l : Arrangement) :
    l.grouping.IsFlat (k.grouping.group ps) := by
  cases k <;> cases l
  case row.row | choice.choice => exact flat
  case row.choice | choice.row => exact Grouping.isFlat_of_ne fun _ same => nomatch same

theorem isCanonical_group : (k.grouping.group ps).IsCanonical ↔
    k.grouping.IsFlat (k.grouping.group ps) ∧ ∀ p ∈ ps, p.IsCanonical := by
  simp only [isCanonical_iff_isFlat, subpatterns_group, List.forall_mem_cons]
  constructor
  · intro flat
    exact ⟨(flat k).1, fun p member l q inside =>
      (flat l).2 q (mem_subpatternsOfEach.mpr ⟨p, member, inside⟩)⟩
  · rintro ⟨flat, each⟩ l
    refine ⟨isFlat_group_of_self flat l, fun q inside => ?_⟩
    obtain ⟨p, member, inside⟩ := mem_subpatternsOfEach.mp inside
    exact each p member l q inside

/-- A pattern that has no members in either arrangement is canonical if all others inside it are. -/
theorem isCanonical_of_ne {inner : List Pattern} (all : p.subpatterns = p :: inner)
    (other : ∀ (k : Arrangement) ps, p ≠ k.grouping.group ps) :
    p.IsCanonical ↔ ∀ k : Arrangement, ∀ q ∈ inner, k.grouping.IsFlat q := by
  rw [isCanonical_iff_isFlat, all]
  simp only [List.forall_mem_cons, Grouping.isFlat_of_ne (other _), true_and]

theorem isCanonical_token (t : TokenPattern) : (token t).IsCanonical :=
  (isCanonical_of_ne rfl fun k _ same => by cases k <;> cases same).mpr (by simp)

theorem isCanonical_optional : (optional p).IsCanonical ↔ p.IsCanonical := by
  rw [isCanonical_iff_isFlat (p := p)]
  exact isCanonical_of_ne rfl fun k _ same => by cases k <;> cases same

theorem isCanonical_repeated {least : Nat} {most : Option Nat} :
    (repeated p least most).IsCanonical ↔ p.IsCanonical := by
  rw [isCanonical_iff_isFlat (p := p)]
  exact isCanonical_of_ne rfl fun k _ same => by cases k <;> cases same

/-! ### What the builders make -/

theorem IsCanonical.members (canonical : p.IsCanonical) (k : Arrangement) :
    ∀ q ∈ k.grouping.members p, q.IsCanonical := by
  by_cases isGroup : ∃ ps, p = k.grouping.group ps
  · obtain ⟨ps, rfl⟩ := isGroup
    rw [Grouping.members_group]
    exact (isCanonical_group.mp canonical).2
  · rw [k.grouping.members_of_ne (not_exists.mp isGroup)]
    exact List.forall_mem_singleton.mpr canonical

theorem isCanonical_gather (k : Arrangement) (each : ∀ p ∈ ps, p.IsCanonical) :
    (k.grouping.gather ps).IsCanonical := by
  have flat : k.grouping.IsFlat (k.grouping.gather ps) :=
    Grouping.isFlat_gather fun p inside => (each p inside).isFlat k
  have members : ∀ q ∈ ps.flatMap k.grouping.members, q.IsCanonical :=
    List.forall_mem_flatMap.mpr fun p inside => (each p inside).members k
  rw [Grouping.gather, Grouping.close.eq_def] at flat ⊢
  -- a single member takes the place of the group
  split at flat
  · next q single =>
    rw [single] at members
    exact members q (List.mem_singleton_self q)
  · exact isCanonical_group.mpr ⟨flat, members⟩

theorem isCanonical_inOrder (each : ∀ p ∈ ps, p.IsCanonical) : (inOrder ps).IsCanonical :=
  gather_row ps ▸ isCanonical_gather .row each

theorem isCanonical_oneOf (each : ∀ p ∈ ps, p.IsCanonical) : (oneOf ps).IsCanonical :=
  gather_choice ps ▸ isCanonical_gather .choice each

theorem IsBuilt.isCanonical (built : p.IsBuilt) : p.IsCanonical := by
  induction built with
  | any => exact isCanonical_token _
  | headword text => exact isCanonical_token _
  | headwordTagged text tag => exact isCanonical_token _
  | tagged tag => exact isCanonical_token _
  | headwords phrase =>
    exact isCanonical_inOrder (List.forall_mem_map.mpr fun word _ => isCanonical_token _)
  | inOrder _ each => exact isCanonical_inOrder each
  | oneOf _ each => exact isCanonical_oneOf each
  | optional _ body => exact isCanonical_optional.mpr body
  | repeated least most _ body => exact isCanonical_repeated.mpr body
  | followedBy _ _ first second =>
    exact isCanonical_inOrder (List.forall_mem_cons.mpr
      ⟨first, List.forall_mem_singleton.mpr second⟩)

mutual

/-- A canonical group is what the builder makes of its members. -/
theorem isBuilt_of_isCanonical : ∀ p : Pattern, p.IsCanonical → p.IsBuilt
  | .token ⟨tag, none⟩, _ => .tagged tag
  | .token ⟨tag, some text⟩, _ => .headwordTagged text tag
  | .sequence ps, canonical => by
    obtain ⟨flat, each⟩ := (isCanonical_group (k := .row)).mp canonical
    have same : inOrder ps = sequence ps := (gather_row ps).symm.trans (Grouping.gather_eq_group flat)
    exact same ▸ .inOrder (isBuilt_of_isCanonical_each ps each)
  | .anyOf ps, canonical => by
    obtain ⟨flat, each⟩ := (isCanonical_group (k := .choice)).mp canonical
    have same : oneOf ps = anyOf ps := (gather_choice ps).symm.trans (Grouping.gather_eq_group flat)
    exact same ▸ .oneOf (isBuilt_of_isCanonical_each ps each)
  | .optional p, canonical =>
    .optional (isBuilt_of_isCanonical p (isCanonical_optional.mp canonical))
  | .repeated p least most, canonical =>
    .repeated least most (isBuilt_of_isCanonical p (isCanonical_repeated.mp canonical))

theorem isBuilt_of_isCanonical_each : ∀ ps : List Pattern, (∀ p ∈ ps, p.IsCanonical) →
    ∀ p ∈ ps, p.IsBuilt
  | [], _ => by simp
  | p :: ps, each => by
    obtain ⟨here, later⟩ := List.forall_mem_cons.mp each
    exact List.forall_mem_cons.mpr
      ⟨isBuilt_of_isCanonical p here, isBuilt_of_isCanonical_each ps later⟩

end

theorem isBuilt_iff : p.IsBuilt ↔ p.IsCanonical :=
  ⟨IsBuilt.isCanonical, isBuilt_of_isCanonical p⟩

theorem IsBuilt.isFlat (built : p.IsBuilt) (k : Arrangement) : k.grouping.IsFlat p :=
  built.isCanonical.isFlat k

/-! ### Laws of the builders -/

theorem followedBy_eq_join : followedBy = (grouping .row).join :=
  funext₂ fun p q => (gather_row [p, q]).symm

theorem oneOf_pair_eq_join : (fun p q => oneOf [p, q]) = (grouping .choice).join :=
  funext₂ fun p q => (gather_choice [p, q]).symm

/-- The builders make the canonical patterns, and nothing else. Among these, patterns in a row and
alternatives may be put together in any order of steps, the empty sequence changes no row, and the
empty choice adds no alternative. So it is the same to put patterns together one by one, from either
end, and all at once. -/
theorem built_laws :
    (∀ p : Pattern, p.IsBuilt ↔ p.IsCanonical) ∧
    (∀ p q r : Pattern, p.IsBuilt → q.IsBuilt → r.IsBuilt →
      (p.followedBy q).followedBy r = p.followedBy (q.followedBy r) ∧
      oneOf [oneOf [p, q], r] = oneOf [p, oneOf [q, r]]) ∧
    (∀ p : Pattern, p.IsBuilt →
      ((sequence []).followedBy p = p ∧ p.followedBy (sequence []) = p) ∧
      oneOf [anyOf [], p] = p ∧ oneOf [p, anyOf []] = p) ∧
    ∀ ps : List Pattern, (∀ p ∈ ps, p.IsBuilt) →
      (ps.foldl followedBy (sequence []) = inOrder ps ∧
        ps.foldr followedBy (sequence []) = inOrder ps) ∧
      ps.foldl (fun p q => oneOf [p, q]) (anyOf []) = oneOf ps ∧
      ps.foldr (fun p q => oneOf [p, q]) (anyOf []) = oneOf ps := by
  refine ⟨fun p => isBuilt_iff, fun p q r first second third => ?_, fun p built => ?_,
    fun ps built => ?_⟩
  -- each law holds in both arrangements, by what groups of any kind do with flat members
  · have assoc (k : Arrangement) := Grouping.join_assoc (first.isFlat k) (second.isFlat k)
      (third.isFlat k)
    have choice := assoc .choice
    rw [← oneOf_pair_eq_join] at choice
    rw [followedBy_eq_join]
    exact ⟨assoc .row, choice⟩
  · have left (k : Arrangement) := Grouping.join_empty_left (built.isFlat k)
    have right (k : Arrangement) := Grouping.join_empty_right (built.isFlat k)
    have choice := And.intro (left .choice) (right .choice)
    rw [← oneOf_pair_eq_join] at choice
    rw [followedBy_eq_join]
    exact ⟨⟨left .row, right .row⟩, choice⟩
  · have first (k : Arrangement) := Grouping.foldl_join fun p inside => (built p inside).isFlat k
    have last (k : Arrangement) := Grouping.foldr_join fun p inside => (built p inside).isFlat k
    rw [followedBy_eq_join, oneOf_pair_eq_join, ← gather_row, ← gather_choice]
    exact ⟨⟨first .row, last .row⟩, first .choice, last .choice⟩

/-- A phrase, a choice and the phrase without words, which is the empty sequence. -/
theorem built_laws_placeOfBirth :
    let place := headwords "place of"
    let event := oneOf [oneOf [headword "birth", headword "death"], tagged (.exact "NN")]
    let nothing := headwords " "
    (place.IsBuilt ∧ event.IsBuilt ∧ nothing.IsBuilt) ∧
    (place.followedBy nothing).followedBy event = place.followedBy (nothing.followedBy event) ∧
    oneOf [oneOf [place, event], nothing] = oneOf [place, oneOf [event, nothing]] ∧
    (sequence []).followedBy event = event ∧ oneOf [event, anyOf []] = event ∧
    [place, nothing, event].foldl followedBy (sequence []) = sequence [headword "place",
      headword "of", anyOf [headword "birth", headword "death", tagged (.exact "NN")]] ∧
    (place.followedBy event).IsCanonical := by
  intro place event nothing
  obtain ⟨canonical, assoc, empty, folds⟩ := built_laws
  have first : place.IsBuilt := .headwords "place of"
  have last : event.IsBuilt := .oneOf (by
    simpa using ⟨.oneOf (by simpa using ⟨.headword "birth", .headword "death"⟩),
      .tagged (.exact "NN")⟩)
  have blank : nothing.IsBuilt := .headwords " "
  have fold := (folds [place, nothing, event] (by simp [first, last, blank])).1.1
  refine ⟨⟨first, last, blank⟩, (assoc _ _ _ first blank last).1, (assoc _ _ _ first last blank).2,
    (empty event last).1.1, (empty event last).2.2, ?_, (canonical _).mp (first.followedBy last)⟩
  rw [fold]
  decide +kernel

/-- A sequence that was not built may have the empty sequence as a member, and then it matters which
patterns are put together first. -/
example : ((sequence [sequence []]).followedBy (sequence [])).followedBy any ≠
    (sequence [sequence []]).followedBy ((sequence []).followedBy any) := by
  decide

end Pattern

end PhraseGraph
