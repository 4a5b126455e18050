import PhraseGraph.Proofs.Pattern.Priority

/-!
# PhraseGraph.Proofs.Pattern.Contexts

Patterns inside larger patterns.

## Main statements

`Pattern.Congruence.fill`: what the constructors of patterns keep is kept by all that is around one.
`Pattern.congruence_roundsTake`: they keep what is matched, and that rounds take something.
-/

namespace PhraseGraph

namespace Pattern

/-- A pattern with a gap in one place. -/
inductive Context where
  | hole
  | sequence (before : List Pattern) (inner : Context) (after : List Pattern)
  | anyOf (before : List Pattern) (inner : Context) (after : List Pattern)
  | optional (inner : Context)
  | repeated (inner : Context) (least : Nat) (most : Option Nat)

/-- The context with a pattern in its gap. -/
def Context.fill : Context → Pattern → Pattern
  | .hole, p => p
  | .sequence before inner after, p => .sequence (before ++ inner.fill p :: after)
  | .anyOf before inner after, p => .anyOf (before ++ inner.fill p :: after)
  | .optional inner, p => .optional (inner.fill p)
  | .repeated inner least most, p => .repeated (inner.fill p) least most

variable {p q : Pattern} {ps : List Pattern}

theorem mem_subpatternsOfEach : q ∈ subpatternsOfEach ps ↔ ∃ p ∈ ps, q ∈ p.subpatterns := by
  rw [subpatternsOfEach_eq_flatMap, List.mem_flatMap]

theorem self_mem_subpatterns (p : Pattern) : p ∈ p.subpatterns := by
  cases p <;> exact List.mem_cons_self

/-! ### Congruences -/

/-- A relation of patterns that all constructors keep. -/
structure Congruence (r : Pattern → Pattern → Prop) : Prop where
  sequence {p q : Pattern} (before after : List Pattern) : r p q →
    r (.sequence (before ++ p :: after)) (.sequence (before ++ q :: after))
  anyOf {p q : Pattern} (before after : List Pattern) : r p q →
    r (.anyOf (before ++ p :: after)) (.anyOf (before ++ q :: after))
  optional {p q : Pattern} : r p q → r (.optional p) (.optional q)
  repeated {p q : Pattern} (least : Nat) (most : Option Nat) : r p q →
    r (.repeated p least most) (.repeated q least most)

theorem Congruence.fill {r : Pattern → Pattern → Prop} (congruence : Congruence r) (c : Context)
    (related : r p q) : r (c.fill p) (c.fill q) := by
  induction c with
  | hole => exact related
  | sequence before inner after ih => exact congruence.sequence before after ih
  | anyOf before inner after ih => exact congruence.anyOf before after ih
  | optional inner ih => exact congruence.optional ih
  | repeated inner least most ih => exact congruence.repeated least most ih

theorem congruence_language : Congruence fun p q => p.language = q.language where
  sequence before after same := by simp [language, languages_eq_map, same]
  anyOf before after same := by simp [language, languages_eq_map, same]
  optional same := by simp [language, same]
  repeated least most same := by rw [language, language, same]

/-! ### Rounds -/

theorem roundsTake_each : (∀ body least, .repeated body least none ∈ subpatternsOfEach ps →
    [] ∉ body.language) ↔ ∀ p ∈ ps, p.RoundsTake := by
  refine ⟨RoundsTake.of_mem, fun each body least inside => ?_⟩
  obtain ⟨p, member, deeper⟩ := mem_subpatternsOfEach.mp inside
  exact each p member body least deeper

theorem roundsTake_sequence : (sequence ps).RoundsTake ↔ ∀ p ∈ ps, p.RoundsTake := by
  rw [← roundsTake_each]
  simp only [RoundsTake, subpatterns, List.mem_cons, reduceCtorEq, false_or]

theorem roundsTake_anyOf : (anyOf ps).RoundsTake ↔ ∀ p ∈ ps, p.RoundsTake := by
  rw [← roundsTake_each]
  simp only [RoundsTake, subpatterns, List.mem_cons, reduceCtorEq, false_or]

theorem roundsTake_optional : (optional p).RoundsTake ↔ p.RoundsTake := by
  simp only [RoundsTake, subpatterns, List.mem_cons, reduceCtorEq, false_or]

theorem roundsTake_repeated {least : Nat} {most : Option Nat} :
    (repeated p least most).RoundsTake ↔ (most = none → [] ∉ p.language) ∧ p.RoundsTake := by
  constructor
  · intro takes
    refine ⟨?_, fun body least inside => takes body least (List.mem_cons_of_mem _ inside)⟩
    rintro rfl
    exact takes p least List.mem_cons_self
  · rintro ⟨here, deeper⟩ body least' inside
    rcases List.mem_cons.mp inside with same | inside
    · obtain ⟨rfl, -, endless⟩ := repeated.inj same
      exact here endless.symm
    · exact deeper body least' inside

theorem congruence_roundsTake :
    Congruence fun p q => p.language = q.language ∧ (p.RoundsTake ↔ q.RoundsTake) where
  sequence before after same := by
    refine ⟨congruence_language.sequence before after same.1, ?_⟩
    simp only [roundsTake_sequence, List.forall_mem_append, List.forall_mem_cons, same.2]
  anyOf before after same := by
    refine ⟨congruence_language.anyOf before after same.1, ?_⟩
    simp only [roundsTake_anyOf, List.forall_mem_append, List.forall_mem_cons, same.2]
  optional same := by
    refine ⟨congruence_language.optional same.1, ?_⟩
    rw [roundsTake_optional, roundsTake_optional, same.2]
  repeated least most same := by
    refine ⟨congruence_language.repeated least most same.1, ?_⟩
    rw [roundsTake_repeated, roundsTake_repeated, same.1, same.2]

end Pattern

end PhraseGraph
