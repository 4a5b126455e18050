import Mathlib.Data.List.Forall2
import PhraseGraph.Ontology.Sample
import PhraseGraph.Proofs.Outcomes
import PhraseGraph.Proofs.Pattern.Encoding
import PhraseGraph.Proofs.Provider.Requests

/-!
# PhraseGraph.Proofs.Provider.Words

Words are only carried along.

Two phrases are alike if their tokens agree in tag and headword. They are encoded as the same text,
so every lookup finds the same for both, and every request is answered in the same way. Only the
label of a node for a phrase that names no class is made of words.

## Main statements

`PatternIndex.sameLookups`: alike phrases are looked up with the same results.
`Provider.alike_outcome`: alike requests have the same outcome, up to the text of a label.
-/

namespace PhraseGraph

variable {κ : KnowledgeBase} {ρ : Type}

/-! ### Tokens and phrases -/

namespace Token

/-- Tokens that differ in the word at most. -/
structure Alike (t u : Token) : Prop where
  tag_eq : t.tag = u.tag
  headword_eq : t.headword = u.headword

/-- Phrases whose tokens differ in their words at most. -/
abbrev AllAlike : List Token → List Token → Prop := List.Forall₂ Alike

variable {t u : Token} {ts us : List Token}

/-- Tokens are alike if they count as the same. -/
theorem beq_iff_alike : (t == u) = true ↔ t.Alike u := by
  change (t.tag == u.tag && t.headword == u.headword) = true ↔ _
  rw [Bool.and_eq_true, beq_iff_eq, beq_iff_eq]
  exact ⟨fun ⟨tag_eq, headword_eq⟩ => ⟨tag_eq, headword_eq⟩,
    fun alike => ⟨alike.tag_eq, alike.headword_eq⟩⟩

namespace AllAlike

/-- Alike phrases are encoded as the same text. -/
theorem encode_eq (alike : AllAlike ts us) : PhraseGraph.encode ts = PhraseGraph.encode us := by
  induction alike with
  | nil => rfl
  | cons first _ rest => rw [encode_cons, encode_cons, first.tag_eq, first.headword_eq, rest]

theorem headwords_eq (alike : AllAlike ts us) : ts.map headword = us.map headword := by
  induction alike with
  | nil => rfl
  | cons first _ rest => rw [List.map_cons, List.map_cons, first.headword_eq, rest]

theorem isEmpty_eq (alike : AllAlike ts us) : ts.isEmpty = us.isEmpty := by
  cases alike <;> rfl

theorem all_eq {p : Token → Bool} (ignores : ∀ t u, t.Alike u → p t = p u)
    (alike : AllAlike ts us) : ts.all p = us.all p := by
  induction alike with
  | nil => rfl
  | cons first _ rest => rw [List.all_cons, List.all_cons, ignores _ _ first, rest]

theorem append {ts' us' : List Token} (alike : AllAlike ts us) (alike' : AllAlike ts' us') :
    AllAlike (ts ++ ts') (us ++ us') :=
  List.rel_append alike alike'

/-- Alike phrases start with determiners alike. -/
theorem stripDeterminer (alike : AllAlike ts us) (tags : Tagset) :
    AllAlike (tags.stripDeterminer ts) (tags.stripDeterminer us) := by
  cases alike with
  | nil => exact .nil
  | @cons t u _ _ first rest =>
    have same : tags.isDeterminer t = tags.isDeterminer u := by
      rw [Tagset.isDeterminer, Tagset.isDeterminer, first.tag_eq]
    rw [Tagset.stripDeterminer, Tagset.stripDeterminer, same]
    split
    · exact rest
    · exact .cons first rest

end AllAlike

end Token

open Token

/-! ### Lookups -/

section Lookups

variable {ts us : List Token}

theorem Matcher.hits_alike [DecidableEq ρ] (m : Matcher ρ) (alike : AllAlike ts us) :
    m.hits ts = m.hits us := by
  simp only [hits, coverage, alike.encode_eq, alike.length_eq]

theorem Matcher.results_alike [DecidableEq ρ] (m : Matcher ρ) (alike : AllAlike ts us) :
    m.results ts = m.results us := by
  rw [results, results, m.hits_alike alike]

namespace PatternIndex

/-- Every lookup finds the same for two phrases. -/
structure SameLookups (index : PatternIndex κ) (ts us : List Token) : Prop where
  namedProperties : index.namedProperties ts = index.namedProperties us
  inverseProperties : index.inverseProperties ts = index.inverseProperties us
  valueProperties : index.valueProperties ts = index.valueProperties us
  adjectiveProperties : index.adjectiveProperties ts = index.adjectiveProperties us
  leadingAttributes : index.leadingAttributes ts = index.leadingAttributes us
  comparativeProperties : index.comparativeProperties ts = index.comparativeProperties us
  namedClasses : index.namedClasses ts = index.namedClasses us
  relationProperties : index.relationProperties ts = index.relationProperties us

theorem sameLookups (index : PatternIndex κ) (alike : AllAlike ts us) :
    index.SameLookups ts us where
  namedProperties := index.named.results_alike alike
  inverseProperties := index.inverse.results_alike alike
  valueProperties := index.value.results_alike alike
  adjectiveProperties := index.adjective.results_alike alike
  leadingAttributes := index.attributes.hits_alike alike
  comparativeProperties := index.comparative.results_alike alike
  namedClasses := index.classes.results_alike (alike.stripDeterminer index.tags)
  relationProperties := index.relations.results_alike (alike.stripDeterminer index.tags)

end PatternIndex

end Lookups

/-! ### Requests -/

inductive Subject.Alike : Subject → Subject → Prop where
  | named {name name' : List Token} (names : AllAlike name name') :
    Alike (.named name) (.named name')
  | person : Alike .person .person
  | thing : Alike .thing .thing

structure Context.Alike (c d : Context) : Prop where
  subject : c.subject.Alike d.subject
  filter : AllAlike c.filter d.filter

/-- Requests of the same kind for alike phrases and the same node. -/
inductive Request.Alike : Request κ → Request κ → Prop where
  | personEdge : Alike .personEdge .personEdge
  | namedPropertyEdge {name name' : List Token} (names : AllAlike name name') :
    Alike (.namedPropertyEdge name) (.namedPropertyEdge name')
  | inversePropertyEdge {name name' : List Token} {node : Node κ} {context context' : Context}
    (names : AllAlike name name') (contexts : context.Alike context') :
    Alike (.inversePropertyEdge name node context) (.inversePropertyEdge name' node context')
  | adjectivePropertyEdge {name name' : List Token} {node : Node κ} {context context' : Context}
    (names : AllAlike name name') (contexts : context.Alike context') :
    Alike (.adjectivePropertyEdge name node context) (.adjectivePropertyEdge name' node context')
  | comparativePropertyEdge {name name' : List Token} {node : Node κ} {context context' : Context}
    (names : AllAlike name name') (contexts : context.Alike context') :
    Alike (.comparativePropertyEdge name node context)
      (.comparativePropertyEdge name' node context')
  | valuePropertyEdge {name name' : List Token} {node : Node κ} {context context' : Context}
    (names : AllAlike name name') (contexts : context.Alike context') :
    Alike (.valuePropertyEdge name node context) (.valuePropertyEdge name' node context')
  | relationshipEdge {name name' : List Token} {node : Node κ} (names : AllAlike name name') :
    Alike (.relationshipEdge name node) (.relationshipEdge name' node)
  | valueNode {name name' : List Token} (names : AllAlike name name') :
    Alike (.valueNode name) (.valueNode name')
  | numberNode {number number' unit unit' : List Token} (numbers : AllAlike number number')
    (units : AllAlike unit unit') : Alike (.numberNode number unit) (.numberNode number' unit')

/-- What is looked up for a phrase in a context. -/
theorem Context.Alike.phrase {c d : Context} (contexts : c.Alike d) {name name' : List Token}
    (names : AllAlike name name') : AllAlike (name ++ c.filter) (name' ++ d.filter) :=
  names.append contexts.filter

namespace Provider

variable (provider : Provider κ) {name name' : List Token} {context context' : Context}

theorem isDisjunction_alike (alike : AllAlike name name') :
    provider.isDisjunction name = provider.isDisjunction name' := by
  have ignores (t u : Token) (same : t.Alike u) : provider.index.tags.isPreposition t =
      provider.index.tags.isPreposition u := by
    rw [Tagset.isPreposition, Tagset.isPreposition, same.tag_eq]
  rw [isDisjunction, isDisjunction, alike.isEmpty_eq, alike.all_eq ignores]

theorem classPhrase_alike (names : AllAlike name name') :
    provider.classPhrase name = provider.classPhrase name' := by
  have stripped := names.stripDeterminer provider.index.tags
  have behind (n : Nat) := (provider.index.sameLookups (List.forall₂_drop n stripped)).namedClasses
  have found := provider.index.sameLookups stripped
  simp only [classPhrase, found.leadingAttributes, found.namedClasses, behind]

theorem classReading_alike (names : AllAlike name name') :
    provider.classReading name = provider.classReading name' := by
  simp only [classReading, classAllotment, provider.classPhrase_alike names]

theorem related?_alike (names : AllAlike name name') (node : Node κ) :
    provider.related? name node = provider.related? name' node := by
  simp only [related?, provider.classPhrase_alike names,
    (provider.index.sameLookups names).relationProperties]

theorem valuePropertyPlan_alike (names : AllAlike name name') (contexts : context.Alike context')
    (node : Node κ) :
    provider.valuePropertyPlan name node context =
      provider.valuePropertyPlan name' node context' := by
  have found := provider.index.sameLookups (contexts.phrase names)
  simp only [valuePropertyPlan, found.valueProperties]
  obtain ⟨subject, filter⟩ := context
  obtain ⟨subject', filter'⟩ := context'
  obtain ⟨subjects, filters⟩ := contexts
  cases subjects with
  | named subjects =>
    have related := provider.index.sameLookups (subjects.append filters)
    simp only [Context.namedSubject?, Option.bind_eq_bind, Option.bind_some,
      related.relationProperties]
  | person => rfl
  | thing => rfl

theorem numberPlan_alike {number number' unit unit' : List Token}
    (numbers : AllAlike number number') (units : AllAlike unit unit') :
    (numberPlan number unit : Plan (Node κ)) = numberPlan number' unit' := by
  simp only [numberPlan, numbers.headwords_eq, units.headwords_eq, units.isEmpty_eq]

/-- The request is for a node, and it is answered by a label, since the phrase names no class. The
label is made of all words of the phrase. -/
def IsLabelled (request : Request κ) : Prop :=
  ∃ name labelProperty, request = .valueNode name ∧ (provider.classPhrase name).2 = [] ∧
    provider.index.ontology.labelProperty? = some labelProperty ∧
    ∀ s : Supply, Making.outcome (provider.make request) s =
      (.ok (.node ((Node.var s.next).and (.hasLabel labelProperty.ref
        (String.intercalate " " (name.map Token.word))))), ⟨s.next + 1⟩)

theorem isLabelled_of_unnamed {labelProperty : Property κ}
    (unnamed : (provider.classPhrase name).2 = [])
    (found : provider.index.ontology.labelProperty? = some labelProperty) :
    provider.IsLabelled (.valueNode name) := by
  refine ⟨name, labelProperty, rfl, unnamed, found, fun s => ?_⟩
  rw [provider.follows_make, plan, valueNodePlan, classReading, unnamed, labelPlan, found]
  rfl

/-- A phrase that names a class is planned without its words, and so is one that has no label. -/
theorem valueNodePlan_alike (names : AllAlike name name') :
    provider.valueNodePlan name = provider.valueNodePlan name' ∨
      provider.IsLabelled (.valueNode name) ∧ provider.IsLabelled (.valueNode name') := by
  have classes := provider.classPhrase_alike names
  rw [valueNodePlan, valueNodePlan, provider.classReading_alike names]
  cases unnamed : (provider.classPhrase name).2 with
  | nil =>
    cases found : provider.index.ontology.labelProperty? with
    | none => simp [labelPlan, found]
    | some labelProperty =>
      exact Or.inr ⟨provider.isLabelled_of_unnamed unnamed found,
        provider.isLabelled_of_unnamed (classes ▸ unnamed) found⟩
  | cons c rest =>
    left
    rw [classReading, ← classes, unnamed]
    cases provider.index.ontology.instanceProperty? <;> rfl

/-- Alike requests have the same plan, unless both are answered by a label. -/
theorem plan_alike {request other : Request κ} (alike : request.Alike other) :
    provider.plan request = provider.plan other ∨
      provider.IsLabelled request ∧ provider.IsLabelled other := by
  cases alike with
  | personEdge => exact Or.inl rfl
  | namedPropertyEdge names =>
    left
    simp only [plan, namedPropertyPlan, (provider.index.sameLookups names).namedProperties]
  | inversePropertyEdge names contexts =>
    left
    have found := provider.index.sameLookups (contexts.phrase names)
    simp only [plan, inversePropertyPlan, found.inverseProperties]
  | adjectivePropertyEdge names contexts =>
    left
    have found := provider.index.sameLookups (contexts.phrase names)
    simp only [plan, adjectivePropertyPlan, found.adjectiveProperties]
  | comparativePropertyEdge names contexts =>
    left
    have found := provider.index.sameLookups (contexts.phrase names)
    simp only [plan, comparativePropertyPlan, found.comparativeProperties]
  | valuePropertyEdge names contexts =>
    left
    simp only [plan, provider.valuePropertyPlan_alike names contexts]
  | relationshipEdge names =>
    left
    simp only [plan, relationshipPlan, provider.classReading_alike names,
      provider.related?_alike names]
  | valueNode names =>
    rcases provider.valueNodePlan_alike names with same | labelled
    · exact Or.inl (congrArg (Plan.map Fragment.node) same)
    · exact Or.inr labelled
  | numberNode numbers units =>
    left
    simp only [plan, numberPlan_alike numbers units]

/-- Phrases that differ in their words at most are looked up with the same results, and requests for
them have the same outcome. The only exception are the words of a label. -/
theorem alike_outcome :
    (∀ name name', AllAlike name name' → provider.index.SameLookups name name' ∧
      provider.isDisjunction name = provider.isDisjunction name') ∧
    ∀ request other : Request κ, request.Alike other →
      (∀ s, Making.outcome (provider.make request) s = Making.outcome (provider.make other) s) ∨
        provider.IsLabelled request ∧ provider.IsLabelled other := by
  constructor
  · intro name name' names
    exact ⟨provider.index.sameLookups names, provider.isDisjunction_alike names⟩
  · intro request other alike
    rcases provider.plan_alike alike with same | labelled
    · left
      intro s
      rw [provider.follows_make, provider.follows_make, same]
    · exact Or.inr labelled

/-- Whatever women are called, the node for them is the same. -/
theorem alike_outcome_women :
    ∃ provider, ofOntology Sample.ontology {} = .ok provider ∧ ∀ word word' : String, ∀ s : Supply,
      Making.outcome (provider.make (.valueNode [⟨word, "NNS", "woman"⟩])) s =
        Making.outcome (provider.make (.valueNode [⟨word', "NNS", "woman"⟩])) s := by
  have computed : (ofOntology Sample.ontology {}).toOption.map (fun provider =>
      (provider.classPhrase [⟨"women", "NNS", "woman"⟩]).2) =
      some [⟨"Female", some 6581072⟩] := by decide +kernel
  obtain ⟨provider, built, named⟩ := map_toOption_eq_some.mp computed
  refine ⟨provider, built, fun word word' s => ?_⟩
  have names (word word' : String) :
      AllAlike [⟨word, "NNS", "woman"⟩] [⟨word', "NNS", "woman"⟩] := .cons ⟨rfl, rfl⟩ .nil
  rcases (alike_outcome provider).2 _ _ (.valueNode (names word word')) with same | ⟨labelled, -⟩
  · exact same s
  · obtain ⟨_, -, ⟨⟩, unnamed, -⟩ := labelled
    rw [provider.classPhrase_alike (names word "women"), named] at unnamed
    cases unnamed

end Provider

end PhraseGraph
