import PhraseGraph.Proofs.Index.Lookups

/-!
# PhraseGraph.Proofs.Index.Adjectives

Adjectives in the three places where they may stand.

An adjective that is declared for a property may follow the copula, with a filter behind it. If this
filter compares then the same phrase is a comparison, and without the copula the phrase starts with
the adjective as an attribute.

## Main statements

`PatternIndex.mem_comparativeProperties_iff`: the phrases that compare are the adjectives with a
filter that compares, and the declared comparatives.
`PatternIndex.mem_leadingAttributes_of_adjective`: what follows the copula is found in front of the
rest of a phrase as well.
-/

namespace PhraseGraph

variable {κ : KnowledgeBase} {tags : Tagset}

/-! ### Phrases word by word -/

theorem mem_wordLanguage_mul {tag : TagCondition} {headword : String} {l : Language Token}
    {ts : List Token} : ts ∈ wordLanguage tag headword * l ↔
      ∃ t rest, ts = t :: rest ∧ [t] ∈ wordLanguage tag headword ∧ rest ∈ l := by
  rw [Language.mem_mul]
  constructor
  · rintro ⟨_, ⟨t, tagged, named, rfl⟩, rest, follows, rfl⟩
    exact ⟨t, rest, rfl, ⟨t, tagged, named, rfl⟩, follows⟩
  · rintro ⟨t, rest, rfl, word, follows⟩
    exact ⟨[t], word, rest, follows, rfl⟩

/-- The three words of a comparison: the copula, the comparative of an adjective, and the word
behind a comparative. -/
structure Tagset.IsComparison (tags : Tagset) (headword : String) (copula adjective than : Token) :
    Prop where
  copula : [copula] ∈ tags.copulaLanguage
  adjective : [adjective] ∈ tags.comparativeLanguage headword
  than : [than] ∈ tags.comparisonLanguage

theorem Tagset.mem_comparison_iff {headword : String} {ts : List Token} :
    ts ∈ tags.copulaLanguage * (tags.comparativeLanguage headword * tags.comparisonLanguage) ↔
      ∃ copula adjective than, ts = [copula, adjective, than] ∧
        tags.IsComparison headword copula adjective than := by
  rw [copulaLanguage, mem_wordLanguage_mul]
  constructor
  · rintro ⟨copula, _, rfl, isCopula, compared⟩
    obtain ⟨adjective, _, rfl, isComparative, last⟩ := mem_wordLanguage_mul.mp compared
    obtain ⟨than, tagged, named, rfl⟩ := last
    exact ⟨copula, adjective, than, rfl, isCopula, isComparative, than, tagged, named, rfl⟩
  · rintro ⟨copula, adjective, than, rfl, isCopula, isComparative, last⟩
    exact ⟨copula, _, rfl, isCopula, mem_wordLanguage_mul.mpr ⟨adjective, _, rfl, isComparative, last⟩⟩

/-! ### Comparisons -/

namespace Ontology

/-- A declared pattern compares in two ways only: as an adjective whose filter compares, then it is
read as the adjective is, and as a comparative. -/
theorem comparative_eq_some_iff {property other : PropertyRef κ} {pattern : PropertyPattern}
    {comparison : Comparison} {allowed : Language Token} :
    Reading.comparative tags property pattern = some (allowed, ⟨other, comparison⟩) ↔
      Reading.adjective tags property pattern = some (allowed, ⟨other, some comparison⟩) ∨
      property = other ∧ ∃ headword, pattern = .comparative headword comparison ∧ allowed =
        tags.copulaLanguage * (tags.comparativeLanguage headword * tags.comparisonLanguage) := by
  cases pattern with
  | comparative headword comparison' =>
    simp only [Reading.comparative, Reading.adjective]
    grind
  | adjective headword filter =>
    -- the phrase with a filter that compares is the same in both readings
    rcases filter with _ | filter | ⟨filter, comparison'⟩
    · simp [Reading.comparative, Reading.adjective, filterComparison]
    · simp [Reading.comparative, Reading.adjective, filterComparison]
    · simp [Reading.comparative, Reading.adjective, filterLanguage, filterComparison]
  | _ => simp [Reading.comparative, Reading.adjective]

/-- The property declares a comparative, and the phrase is this comparative between the copula and
the word of comparison. -/
def DeclaresComparison (o : Ontology κ) (tags : Tagset) (property : PropertyRef κ)
    (comparison : Comparison) (phrase : List Token) : Prop :=
  ∃ p ∈ o.properties.toList, p.ref = property ∧ ∃ headword,
    .comparative headword comparison ∈ p.patterns ∧ ∃ copula adjective than,
      phrase = [copula, adjective, than] ∧ tags.IsComparison headword copula adjective than

theorem mem_uses_comparative_iff {o : Ontology κ} {property : PropertyRef κ}
    {comparison : Comparison} {phrase : List Token} :
    ⟨property, comparison⟩ ∈ o.uses (Reading.comparative tags) phrase ↔
      ⟨property, some comparison⟩ ∈ o.uses (Reading.adjective tags) phrase ∨
      o.DeclaresComparison tags property comparison phrase := by
  simp only [mem_uses, comparative_eq_some_iff, DeclaresComparison, ← Tagset.mem_comparison_iff]
  constructor
  · rintro ⟨p, declared, pattern, listed, allowed,
      read | ⟨named, headword, rfl, rfl⟩, serves⟩
    · exact Or.inl ⟨p, declared, pattern, listed, allowed, read, serves⟩
    · exact Or.inr ⟨p, declared, named, headword, listed, serves⟩
  · rintro (⟨p, declared, pattern, listed, allowed, read, serves⟩ |
      ⟨p, declared, named, headword, listed, serves⟩)
    · exact ⟨p, declared, pattern, listed, allowed, Or.inl read, serves⟩
    · exact ⟨p, declared, _, listed, _, Or.inr ⟨named, headword, rfl, rfl⟩, serves⟩

end Ontology

namespace PatternIndex

variable {o : Ontology κ} {index : PatternIndex κ}

theorem adjectiveProperties_eq (fields : CompiledFrom o tags index) (phrase : List Token) :
    index.adjectiveProperties phrase = o.uses (Reading.adjective tags) phrase :=
  results_propertyEntries fields.adjective (Ontology.reads_adjectivePhrase? tags) phrase

theorem comparativeProperties_eq (fields : CompiledFrom o tags index) (phrase : List Token) :
    index.comparativeProperties phrase = o.uses (Reading.comparative tags) phrase :=
  results_propertyEntries fields.comparative (Ontology.reads_comparativePhrase? tags) phrase

/-- A phrase compares a property if it says the property of its owner with this comparison, in the
form of an adjective, or if it is a comparative that the property declares. -/
theorem mem_comparativeProperties_iff (built : ofOntology o tags = .ok index)
    (phrase : List Token) (property : PropertyRef κ) (comparison : Comparison) :
    ⟨property, comparison⟩ ∈ index.comparativeProperties phrase ↔
      ⟨property, some comparison⟩ ∈ index.adjectiveProperties phrase ∨
      o.DeclaresComparison tags property comparison phrase := by
  have fields := compiledFrom_of_ofOntology built
  rw [adjectiveProperties_eq fields, comparativeProperties_eq fields]
  exact Ontology.mem_uses_comparative_iff

/-- One property is compared in both ways, and in opposite directions. -/
theorem mem_comparativeProperties_iff_towers : ∃ index, ofOntology towers {} = .ok index ∧
    ⟨⟨"hasHeight", some 2048⟩, .greaterThan⟩ ∈ index.comparativeProperties
      [⟨"is", "VBZ", "be"⟩, ⟨"tall", "JJ", "tall"⟩, ⟨"above", "IN", "above"⟩] ∧
    ⟨⟨"hasHeight", some 2048⟩, .lessThan⟩ ∈ index.comparativeProperties
      [⟨"is", "VBZ", "be"⟩, ⟨"taller", "JJR", "tall"⟩, ⟨"than", "IN", "than"⟩] := by
  have computed : (ofOntology towers {}).toOption.map (fun index => index.adjectiveProperties
      [⟨"is", "VBZ", "be"⟩, ⟨"tall", "JJ", "tall"⟩, ⟨"above", "IN", "above"⟩]) =
      some [⟨⟨"hasHeight", some 2048⟩, some .greaterThan⟩] := by decide +kernel
  obtain ⟨index, built, adjectives⟩ := map_toOption_eq_some.mp computed
  refine ⟨index, built, (mem_comparativeProperties_iff built _ _ _).mpr (Or.inl ?_),
    (mem_comparativeProperties_iff built _ _ _).mpr (Or.inr ?_)⟩
  · rw [adjectives]
    exact List.mem_cons_self
  · exact ⟨_, List.mem_cons_self, rfl, "tall", List.mem_cons_self, _, _, _, rfl,
      ⟨_, by decide, by decide, rfl⟩, ⟨_, by decide, by decide, rfl⟩, ⟨_, by decide, by decide, rfl⟩⟩

/-! ### Attributes -/

/-- An adjective after the copula, with any filter or none, is an attribute in front of the phrase
without the copula. -/
theorem mem_leadingAttributes_of_adjective (fields : CompiledFrom o tags index)
    {phrase : List Token} {usage : PropertyUsage κ}
    (found : usage ∈ index.adjectiveProperties phrase) :
    ⟨⟨usage.property, none⟩, 1⟩ ∈ index.leadingAttributes (phrase.drop 1) := by
  rw [adjectiveProperties_eq fields] at found
  obtain ⟨p, declared, pattern, listed, allowed, read, serves⟩ := Ontology.mem_uses.mp found
  cases pattern with
  | adjective headword filter =>
    cases read
    rw [mul_assoc, Tagset.copulaLanguage] at serves
    obtain ⟨copula, _, rfl, -, serves⟩ := mem_wordLanguage_mul.mp serves
    obtain ⟨t, rest, rfl, isAdjective, -⟩ := mem_wordLanguage_mul.mp serves
    refine (mem_leadingAttributes_iff fields).mpr ⟨rfl, t, rest, rfl, p, declared, _, listed,
      tags.adjectivePattern headword, rfl, ?_⟩
    rwa [Pattern.language_adjectivePattern]
  | _ => cases read

end PatternIndex

end PhraseGraph
