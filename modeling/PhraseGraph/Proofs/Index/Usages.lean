import PhraseGraph.Proofs.Index.Relations

/-!
# PhraseGraph.Proofs.Index.Usages

The properties and classes that an index finds for a phrase.

A reading tells of a declared pattern which phrases use its property in one way, and what they say
of it. An index finds for a phrase what is found by going through all declarations with a reading.

## Main statements

`Ontology.matching_propertyEntries`: the entries of a category match a phrase as its reading does.
`PatternIndex.usages_eq`: the properties and classes that are found for a phrase, in order.
-/

namespace PhraseGraph

variable {κ : KnowledgeBase}

/-! ### Languages of words and filters -/

/-- The phrases of one word that has a tag and a headword, both told without the characters that
end fields. -/
def wordLanguage (tag : TagCondition) (headword : String) : Language Token :=
  {ts | ∃ t : Token, tag.stripped.accepts (stripped t.tag) = true ∧
    stripped t.headword = stripped headword ∧ ts = [t]}

namespace Tagset

variable (tags : Tagset)

/-- The copula, as any form of a verb. -/
def copulaLanguage : Language Token := wordLanguage (.startsWith tags.verb) tags.copula

def adjectiveLanguage (headword : String) : Language Token :=
  wordLanguage (.exact tags.adjective) headword

def comparativeLanguage (headword : String) : Language Token :=
  wordLanguage (.exact tags.comparativeAdjective) headword

/-- The word behind a comparative, "than", whatever its tag. -/
def comparisonLanguage : Language Token := wordLanguage .any tags.comparison

end Tagset

/-- What trails a phrase that has a filter, nothing otherwise. -/
def filterLanguage : Option FilterPattern → Language Token
  | some (.named p) => p.language
  | some (.comparative p _) => p.language
  | none => 1

/-- The comparison that a filter asks for, none unless it compares. -/
def filterComparison : Option FilterPattern → Option Comparison
  | some (.comparative _ comparison) => some comparison
  | some (.named _) => none
  | none => none

namespace Pattern

@[simp] theorem language_headwordTagged (headword : String) (tag : TagCondition) :
    (headwordTagged headword tag).language = wordLanguage tag headword := by
  ext ts
  simp only [headwordTagged, language, TokenPattern.accepts, Option.all_some, Bool.and_eq_true,
    beq_iff_eq, and_assoc]
  rfl

@[simp] theorem language_headword (text : String) :
    (headword text).language = wordLanguage .any text :=
  language_headwordTagged text .any

@[simp] theorem language_copulaPattern (tags : Tagset) :
    tags.copulaPattern.language = tags.copulaLanguage :=
  language_headwordTagged tags.copula _

@[simp] theorem language_adjectivePattern (tags : Tagset) (headword : String) :
    (tags.adjectivePattern headword).language = tags.adjectiveLanguage headword :=
  language_headwordTagged headword _

@[simp] theorem language_comparativePattern (tags : Tagset) (headword : String) :
    (tags.comparativePattern headword).language =
      tags.comparativeLanguage headword * tags.comparisonLanguage := by
  rw [Tagset.comparativePattern, language_followedBy, language_headwordTagged, language_headword]
  rfl

theorem language_filteredPattern (p : Pattern) (filter : Option FilterPattern) :
    (filteredPattern p filter).language = p.language * filterLanguage filter := by
  cases filter with
  | none => exact (mul_one p.language).symm
  | some filter => cases filter <;> exact language_followedBy p _

end Pattern

/-! ### Readings -/

/-- A way to use properties in phrases: the phrases that a declared pattern allows, and what they
say of its property; none if the pattern is for other uses. -/
abbrev Reading (κ : KnowledgeBase) (ρ : Type) :=
  PropertyRef κ → PropertyPattern → Option (Language Token × ρ)

namespace Reading

variable (tags : Tagset)

def named : Reading κ (PropertyRef κ)
  | property, .named p => some (p.language, property)
  | _, _ => none

def inverse : Reading κ (PropertyUsage κ)
  | property, .inverse p filter =>
    some (p.language * filterLanguage filter, ⟨property, filterComparison filter⟩)
  | _, _ => none

def value : Reading κ (PropertyUsage κ)
  | property, .value p filter =>
    some (p.language * filterLanguage filter, ⟨property, filterComparison filter⟩)
  | _, _ => none

def adjective : Reading κ (PropertyUsage κ)
  | property, .adjective headword filter =>
    some (tags.copulaLanguage * tags.adjectiveLanguage headword * filterLanguage filter,
      ⟨property, filterComparison filter⟩)
  | _, _ => none

/-- Comparatives, and adjectives with a filter that compares. -/
def comparative : Reading κ (ComparativeUsage κ)
  | property, .comparative headword comparison =>
    some (tags.copulaLanguage * (tags.comparativeLanguage headword * tags.comparisonLanguage),
      ⟨property, comparison⟩)
  | property, .adjective headword (some (.comparative filter comparison)) =>
    some (tags.copulaLanguage * tags.adjectiveLanguage headword * filter.language,
      ⟨property, comparison⟩)
  | _, _ => none

end Reading

namespace Ontology

variable {ρ : Type}

open Classical in
/-- What the declared patterns say of a phrase in one use: the properties as they stand in the
ontology, and the patterns of each as they are declared. -/
noncomputable def readings (o : Ontology κ) (reading : Reading κ ρ) (phrase : List Token) :
    List ρ :=
  o.properties.toList.flatMap fun p => p.patterns.flatMap fun pattern =>
    match reading p.ref pattern with
    | some (allowed, use) => if phrase ∈ allowed then [use] else []
    | none => []

open Classical in
/-- The classes with a name that is the phrase, once for each such name. -/
noncomputable def namesakes (o : Ontology κ) (phrase : List Token) : List (ClassRef κ) :=
  o.classes.toList.flatMap fun c => (c.names.filter fun p => phrase ∈ p.language).map fun _ => c.ref

variable {o : Ontology κ} {reading : Reading κ ρ} {phrase : List Token}

theorem mem_readings {use : ρ} :
    use ∈ o.readings reading phrase ↔ ∃ p ∈ o.properties.toList, ∃ pattern ∈ p.patterns,
      ∃ allowed, reading p.ref pattern = some (allowed, use) ∧ phrase ∈ allowed := by
  classical
  simp only [readings, List.mem_flatMap]
  constructor
  · rintro ⟨p, declared, pattern, member, found⟩
    split at found
    · next allowed other read =>
      split at found
      · next serves =>
        obtain rfl := List.mem_singleton.mp found
        exact ⟨p, declared, pattern, member, allowed, read, serves⟩
      · cases found
    · cases found
  · rintro ⟨p, declared, pattern, member, allowed, read, serves⟩
    refine ⟨p, declared, pattern, member, ?_⟩
    rw [read]
    simp [serves]

/-- Entries that are made as a reading says match a phrase as the reading does. -/
theorem matching_propertyEntries {phrase? : PropertyRef κ → PropertyPattern → Option (Pattern × ρ)}
    (reads : ∀ property pattern,
      (phrase? property pattern).map (fun entry => (entry.1.language, entry.2)) =
        reading property pattern) (phrase : List Token) :
    Matcher.matching (o.propertyEntries phrase?) phrase = o.readings reading phrase := by
  rw [propertyEntries, Matcher.matching_flatMap, readings]
  refine List.flatMap_congr fun p _ => ?_
  rw [List.filterMap_eq_flatMap_toList, Matcher.matching_flatMap]
  refine List.flatMap_congr fun pattern _ => ?_
  rw [← reads]
  cases phrase? p.ref pattern with
  | none => rfl
  | some entry => by_cases serves : phrase ∈ entry.1.language <;> simp [Matcher.matching, serves]

theorem matching_classEntries (phrase : List Token) :
    Matcher.matching o.classEntries phrase = o.namesakes phrase := by
  rw [classEntries, Matcher.matching_flatMap]
  exact List.flatMap_congr fun c _ =>
    Matcher.matching_map (f := id) (fun _ => rfl) c.names c.ref phrase

/-! ### Entries of the categories -/

section Entries

variable (tags : Tagset) (property : PropertyRef κ) (pattern : PropertyPattern)

theorem reads_usageEntry (p : Pattern) (filter : Option FilterPattern) :
    ((usageEntry property p filter).1.language, (usageEntry property p filter).2) =
      (p.language * filterLanguage filter, ⟨property, filterComparison filter⟩) := by
  refine Prod.ext (Pattern.language_filteredPattern p filter) ?_
  cases filter with
  | none => rfl
  | some filter => cases filter <;> rfl

theorem language_predicate (headword : String) :
    (predicate tags headword).language =
      tags.copulaLanguage * tags.adjectiveLanguage headword := by
  rw [predicate, Pattern.language_followedBy, Pattern.language_copulaPattern,
    Pattern.language_adjectivePattern]

theorem reads_namedPhrase? :
    (namedPhrase? property pattern).map (fun entry => (entry.1.language, entry.2)) =
      Reading.named property pattern := by
  cases pattern <;> rfl

theorem reads_inversePhrase? :
    (inversePhrase? property pattern).map (fun entry => (entry.1.language, entry.2)) =
      Reading.inverse property pattern := by
  cases pattern with
  | inverse p filter => exact congrArg some (reads_usageEntry property p filter)
  | _ => rfl

theorem reads_valuePhrase? :
    (valuePhrase? property pattern).map (fun entry => (entry.1.language, entry.2)) =
      Reading.value property pattern := by
  cases pattern with
  | value p filter => exact congrArg some (reads_usageEntry property p filter)
  | _ => rfl

theorem reads_adjectivePhrase? :
    (adjectivePhrase? tags property pattern).map (fun entry => (entry.1.language, entry.2)) =
      Reading.adjective tags property pattern := by
  cases pattern with
  | adjective headword filter =>
    rw [Reading.adjective, ← language_predicate]
    exact congrArg some (reads_usageEntry property (predicate tags headword) filter)
  | _ => rfl

theorem reads_comparativePhrase? :
    (comparativePhrase? tags property pattern).map (fun entry => (entry.1.language, entry.2)) =
      Reading.comparative tags property pattern := by
  cases pattern with
  | comparative headword comparison =>
    rw [comparativePhrase?, Option.map_some, Pattern.language_followedBy,
      Pattern.language_copulaPattern, Pattern.language_comparativePattern]
    rfl
  | adjective headword filter =>
    match filter with
    | some (.comparative p comparison) =>
      rw [comparativePhrase?, Option.map_some, Pattern.language_followedBy, language_predicate]
      rfl
    | some (.named _) => rfl
    | none => rfl
  | _ => rfl

end Entries

end Ontology

namespace PatternIndex

variable {o : Ontology κ} {tags : Tagset} {index : PatternIndex κ}

/-- What a lookup returns is what going through the declarations finds, each result where it occurs
first. -/
theorem usages_eq (built : ofOntology o tags = .ok index) (phrase : List Token) :
    index.namedProperties phrase = (o.readings Reading.named phrase).eraseDups ∧
    index.inverseProperties phrase = (o.readings Reading.inverse phrase).eraseDups ∧
    index.valueProperties phrase = (o.readings Reading.value phrase).eraseDups ∧
    index.adjectiveProperties phrase = (o.readings (Reading.adjective tags) phrase).eraseDups ∧
    index.comparativeProperties phrase =
      (o.readings (Reading.comparative tags) phrase).eraseDups ∧
    index.namedClasses phrase = (o.namesakes (tags.stripDeterminer phrase)).eraseDups := by
  have fields := compiledFrom_of_ofOntology built
  refine ⟨?_, ?_, ?_, ?_, ?_, ?_⟩
  · rw [namedProperties, Matcher.results_full fields.named,
      Ontology.matching_propertyEntries Ontology.reads_namedPhrase?]
  · rw [inverseProperties, Matcher.results_full fields.inverse,
      Ontology.matching_propertyEntries Ontology.reads_inversePhrase?]
  · rw [valueProperties, Matcher.results_full fields.value,
      Ontology.matching_propertyEntries Ontology.reads_valuePhrase?]
  · rw [adjectiveProperties, Matcher.results_full fields.adjective,
      Ontology.matching_propertyEntries (Ontology.reads_adjectivePhrase? tags)]
  · rw [comparativeProperties, Matcher.results_full fields.comparative,
      Ontology.matching_propertyEntries (Ontology.reads_comparativePhrase? tags)]
  · rw [namedClasses, fields.tags_eq, Matcher.results_full fields.classes,
      Ontology.matching_classEntries]

/-- An adjective whose filter compares, after the copula and before the filter. -/
def tallAbove : PropertyPattern :=
  .adjective "tall" (some (.comparative (.headword "above") .greaterThan))

def towers : Ontology .numbered :=
  .ofDeclarations [.ofProperty
    { id := "hasHeight", mapping := some 2048, patterns := [.comparative "tall" .lessThan, tallAbove] }]

/-- One declaration is found both among the adjectives and among the comparatives. -/
theorem usages_eq_towers : ∃ index, ofOntology towers {} = .ok index ∧
    ⟨⟨"hasHeight", some 2048⟩, some .greaterThan⟩ ∈ index.adjectiveProperties
      [⟨"is", "VBZ", "be"⟩, ⟨"tall", "JJ", "tall"⟩, ⟨"above", "IN", "above"⟩] ∧
    ⟨⟨"hasHeight", some 2048⟩, .greaterThan⟩ ∈ index.comparativeProperties
      [⟨"is", "VBZ", "be"⟩, ⟨"tall", "JJ", "tall"⟩, ⟨"above", "IN", "above"⟩] := by
  have compiles : (ofOntology towers {}).toOption.isSome = true := by decide +kernel
  obtain ⟨index, built⟩ := isSome_toOption.mp compiles
  refine ⟨index, built, ?_⟩
  obtain ⟨-, -, -, adjectives, comparatives, -⟩ := usages_eq built
    [⟨"is", "VBZ", "be"⟩, ⟨"tall", "JJ", "tall"⟩, ⟨"above", "IN", "above"⟩]
  have copula : [(⟨"is", "VBZ", "be"⟩ : Token)] ∈ Tagset.copulaLanguage {} :=
    ⟨_, by decide, by decide, rfl⟩
  have tall : [(⟨"tall", "JJ", "tall"⟩ : Token)] ∈ Tagset.adjectiveLanguage {} "tall" :=
    ⟨_, by decide, by decide, rfl⟩
  have above : [(⟨"above", "IN", "above"⟩ : Token)] ∈ (Pattern.headword "above").language := by
    rw [Pattern.language_headword]
    exact ⟨_, by decide, by decide, rfl⟩
  have serves := Language.append_mem_mul (Language.append_mem_mul copula tall) above
  have declared : tallAbove ∈ [.comparative "tall" .lessThan, tallAbove] :=
    List.mem_cons_of_mem _ List.mem_cons_self
  rw [adjectives, comparatives, List.mem_eraseDups, List.mem_eraseDups]
  exact ⟨Ontology.mem_readings.mpr ⟨_, List.mem_cons_self, tallAbove, declared, _, rfl, serves⟩,
    Ontology.mem_readings.mpr ⟨_, List.mem_cons_self, tallAbove, declared, _, rfl, serves⟩⟩

end PatternIndex

end PhraseGraph
