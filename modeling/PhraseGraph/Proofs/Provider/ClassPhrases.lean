import PhraseGraph.Proofs.Fragment.Truth
import PhraseGraph.Proofs.Provider.PropertyEdges

/-!
# PhraseGraph.Proofs.Provider.ClassPhrases

What is said of an owner by a phrase that names classes.

Such a phrase may start with a determiner, and then with an adjective. The owner is an instance of
one of the classes that are named behind these, one of the adjectives is true of it, and for a
relationship it is related to a given node. Each of the three may be a disjunction, and whatever
way they are put together, they keep their meaning.

## Main statements

`Provider.holds_classAllotment`: the edge of classes with the adjectives in front of them.
`Provider.classPhrases_outcome`: what is answered if a relationship or a node is asked for.
`Provider.valueNode_outcome`: the classes of a node for a phrase without adjectives. These are the
classes that the phrase names, except that a second determiner is dropped as well.
-/

namespace PhraseGraph

variable {κ : KnowledgeBase}

/-- The property of an adjective has a value, which comes first in the order of a superlative. -/
def Attribute.edge (a : Attribute κ) (id : Nat) : Edge κ :=
  .outgoing a.property { label := .var id, order := a.order }

/-- What follows the adjective in front of a phrase. Without one it is the phrase itself. -/
def PatternIndex.afterAdjective (index : PatternIndex κ) (phrase : List Token) : List Token :=
  if index.leadingAttributes phrase = [] then phrase else phrase.drop 1

namespace Provider

section Parts

variable (provider : Provider κ)

/-- The adjectives in front of a phrase, behind its determiner. -/
def attributes (name : List Token) : List (TokenMatch (Attribute κ)) :=
  provider.index.leadingAttributes (provider.index.tags.stripDeterminer name)

/-- The classes that are named behind the determiner and the adjectives. -/
def classes (name : List Token) : List (ClassRef κ) :=
  provider.index.namedClasses
    (provider.index.afterAdjective (provider.index.tags.stripDeterminer name))

/-- How the instances of the classes may be related to something: by the relations that the phrase
names, and by what its classes are equivalent to. -/
def relations (name : List Token) : List (DirectedProperty κ) :=
  provider.index.relationProperties name ++
    (provider.classes name).flatMap provider.index.segmentsOf

end Parts

/-- The answer to a phrase that names no class: a node that is labelled with all of its words. -/
def labelled (o : Ontology κ) (name : List Token) (s : Supply) :
    Except ProviderError (Node κ) × Supply :=
  match o.labelProperty? with
  | some label => (.ok ((Node.var s.next).and
      (.hasLabel label.ref (String.intercalate " " (name.map Token.word)))), ⟨s.next + 1⟩)
  | none => (.error .notAvailable, s)

/-! ### Meaning of the parts -/

variable {o : Ontology κ} {settings : Settings} {provider : Provider κ} {isA : Property κ}

section Fields

variable (fields : PatternIndex.CompiledFrom o settings.tags provider.index)

include fields

/-- All adjectives in front of a phrase are one token, so each of them leaves the same. -/
theorem classPhrase_eq (name : List Token) :
    provider.classPhrase name = (provider.attributes name, provider.classes name) := by
  simp only [classPhrase, attributes, classes, PatternIndex.afterAdjective, List.isEmpty_iff]
  generalize provider.index.tags.stripDeterminer name = phrase
  by_cases plain : provider.index.leadingAttributes phrase = []
  · rw [if_pos plain, if_pos plain]
  · have same : ∀ found ∈ provider.index.leadingAttributes phrase,
        provider.index.namedClasses (phrase.drop found.length) =
          provider.index.namedClasses (phrase.drop 1) := fun found member => by
      rw [PatternIndex.length_of_mem_leadingAttributes fields member]
    rw [if_neg plain, if_neg plain, List.flatMap_congr same, eraseDups_flatMap_const plain,
      PatternIndex.namedClasses, Matcher.eraseDups_results]

theorem classReading_eq (resolves : o.instanceProperty? = some isA) (name : List Token) :
    provider.classReading name = .ok (if provider.classes name = [] then none
      else some (provider.classAllotment isA.ref name)) := by
  rw [classReading, classPhrase_eq fields, fields.ontology_eq, resolves]
  by_cases unnamed : provider.classes name = [] <;> simp [unnamed]

theorem count_classAllotment_eq (isA : PropertyRef κ) (name : List Token) :
    (provider.classAllotment isA name).count = (provider.attributes name).length := by
  rw [count_classAllotment, classPhrase_eq fields]

theorem outcome_valueNode (resolves : o.instanceProperty? = some isA) (name : List Token)
    (s : Supply) :
    Making.outcome (provider.valueNode name) s =
      if provider.classes name = [] then labelled o name s
      else (.ok ((Node.var (s.next + (provider.attributes name).length)).and
          ((provider.classAllotment isA.ref name).made s.next).edge),
        ⟨s.next + (provider.attributes name).length + 1⟩) := by
  rw [provider.follows_valueNode name s, valueNodePlan, classReading_eq fields resolves]
  by_cases unnamed : provider.classes name = []
  · rw [if_pos unnamed, if_pos unnamed, labelled, labelPlan, fields.ontology_eq]
    cases o.labelProperty? <;> rfl
  · rw [if_neg unnamed, if_neg unnamed, ← count_classAllotment_eq fields isA.ref]
    rfl

end Fields

theorem instanceProperty?_sample :
    Sample.ontology.instanceProperty? = some ⟨"isA", some 31, []⟩ := rfl

def oldestMother : List Token := [⟨"oldest", "JJS", "old"⟩, ⟨"mother", "NN", "mother"⟩]

end Provider

/-- Whether a phrase starts with two determiners. -/
def Tagset.hasTwoDeterminers (tags : Tagset) : List Token → Bool
  | first :: second :: _ => tags.isDeterminer first && tags.isDeterminer second
  | _ => false

/-- If a determiner is dropped and there is no second one, then there is nothing left to drop. -/
theorem Tagset.stripDeterminer_stripDeterminer {tags : Tagset} {name : List Token}
    (once : tags.hasTwoDeterminers name = false) :
    tags.stripDeterminer (tags.stripDeterminer name) = tags.stripDeterminer name := by
  match name with
  | [] => rfl
  | [t] => cases first : tags.isDeterminer t <;> simp [stripDeterminer, first]
  | t :: u :: rest =>
    cases first : tags.isDeterminer t
    · simp [stripDeterminer, first]
    · have second : tags.isDeterminer u = false := by simpa [hasTwoDeterminers, first] using once
      simp [stripDeterminer, first, second]

namespace Provider

variable {o : Ontology κ} {settings : Settings} {provider : Provider κ} {isA : Property κ}

/-- The answer to a phrase without adjectives: an instance of one of the classes, and labelled if
there are none. -/
structure AnswersClasses (o : Ontology κ) (isA : PropertyRef κ) (name : List Token) (s : Supply)
    (classes : List (ClassRef κ)) (outcome : Except ProviderError (Node κ) × Supply) : Prop where
  instances : classes ≠ [] → ∃ e, outcome = (.ok ((Node.var s.next).and e), ⟨s.next + 1⟩) ∧
    e.disjuncts = classes.map (Edge.isA isA)
  labelled_iff : outcome = labelled o name s ↔ classes = []

/-- No node with classes is a node with a label. -/
theorem labelled_ne {isA : PropertyRef κ} {name : List Token} {s s' : Supply} {id : Nat}
    {e : Edge κ} {classes : List (ClassRef κ)} (named : classes ≠ [])
    (alternatives : e.disjuncts = classes.map (Edge.isA isA)) :
    (.ok ((Node.var id).and e), s') ≠ labelled o name s := by
  intro same
  rw [labelled] at same
  cases found : o.labelProperty? with
  | none =>
    rw [found] at same
    cases same
  | some label =>
    rw [found] at same
    simp only [Prod.mk.injEq, Except.ok.injEq, Node.and, Node.mk.injEq, Option.some.injEq] at same
    obtain ⟨⟨-, rfl, -⟩, -⟩ := same
    cases classes with
    | nil => exact named rfl
    | cons c classes => cases alternatives

theorem answersClasses_valueNode (built : ofOntology o settings = .ok provider)
    (resolves : o.instanceProperty? = some isA) {name : List Token}
    (plain : provider.attributes name = []) (s : Supply) :
    AnswersClasses o isA.ref name s
      (provider.index.namedClasses (settings.tags.stripDeterminer name))
      (Making.outcome (provider.valueNode name) s) := by
  have fields := compiledFrom_of_ofOntology built
  have classes_eq : provider.classes name =
      provider.index.namedClasses (settings.tags.stripDeterminer name) := by
    rw [classes, PatternIndex.afterAdjective, ← attributes, if_pos plain, fields.tags_eq]
  rw [outcome_valueNode fields resolves, plain, classes_eq]
  generalize provider.index.namedClasses (settings.tags.stripDeterminer name) = found at classes_eq
  by_cases unnamed : found = []
  · rw [if_pos unnamed]
    exact ⟨fun named => absurd unnamed named, iff_of_true rfl unnamed⟩
  · have alternatives : ((provider.classAllotment isA.ref name).made s.next).edge.disjuncts =
        found.map (Edge.isA isA.ref) := by
      rw [classAllotment, classPhrase_eq fields, plain, classes_eq]
      exact Edge.disjuncts_alternatives (List.forall_mem_map.mpr fun _ _ => rfl)
    rw [if_neg unnamed]
    exact ⟨fun _ => ⟨_, rfl, alternatives⟩, iff_of_false (labelled_ne unnamed alternatives) unnamed⟩

/-- The node of a phrase without adjectives has the classes that the phrase names, unless the phrase
starts with two determiners. Then it has the classes that are named behind both, although the phrase
itself is only read behind the first. -/
theorem valueNode_outcome (built : ofOntology o settings = .ok provider)
    (resolves : o.instanceProperty? = some isA) {name : List Token}
    (plain : provider.attributes name = []) (s : Supply) :
    (settings.tags.hasTwoDeterminers name = false →
      AnswersClasses o isA.ref name s (provider.index.namedClasses name)
        (Making.outcome (provider.valueNode name) s)) ∧
    (settings.tags.hasTwoDeterminers name = true →
      provider.index.namedClasses name = (o.namesakes (name.drop 1)).eraseDups ∧
      AnswersClasses o isA.ref name s (o.namesakes (name.drop 2)).eraseDups
        (Making.outcome (provider.valueNode name) s)) := by
  have fields := compiledFrom_of_ofOntology built
  have answers := answersClasses_valueNode built resolves plain s
  rw [PatternIndex.namedClasses_eq fields] at answers ⊢
  constructor
  · intro once
    rwa [Tagset.stripDeterminer_stripDeterminer once] at answers
  · intro twice
    match name with
    | first :: second :: rest =>
      obtain ⟨isFirst, isSecond⟩ := Bool.and_eq_true_iff.mp twice
      simpa [Tagset.stripDeterminer, isFirst, isSecond] using answers

/-- A woman, with some determiners in front. -/
def woman (determiners : Nat) : List Token :=
  List.replicate determiners ⟨"the", "DT", "the"⟩ ++ [⟨"woman", "NN", "woman"⟩]

/-- One determiner is dropped for the classes that a phrase names, and another one for its node. -/
theorem valueNode_outcome_woman :
    ∃ provider, ofOntology Sample.ontology {} = .ok provider ∧
      AnswersClasses Sample.ontology ⟨"isA", some 31⟩ (woman 1) ⟨0⟩ [⟨"Female", some 6581072⟩]
        (Making.outcome (provider.valueNode (woman 1)) ⟨0⟩) ∧
      AnswersClasses Sample.ontology ⟨"isA", some 31⟩ (woman 2) ⟨0⟩ [⟨"Female", some 6581072⟩]
        (Making.outcome (provider.valueNode (woman 2)) ⟨0⟩) := by
  have computed : (ofOntology Sample.ontology {}).toOption.map (fun provider =>
      (provider.attributes (woman 1), provider.attributes (woman 2),
        provider.index.namedClasses (woman 1), provider.index.namedClasses (woman 0))) =
      some ([], [], [⟨"Female", some 6581072⟩], [⟨"Female", some 6581072⟩]) := by decide +kernel
  obtain ⟨provider, built, found⟩ := map_toOption_eq_some.mp computed
  simp only [Prod.mk.injEq] at found
  obtain ⟨plain, plainTwice, named, bare⟩ := found
  have once := (valueNode_outcome built instanceProperty?_sample plain ⟨0⟩).1 rfl
  have twice := ((valueNode_outcome built instanceProperty?_sample plainTwice ⟨0⟩).2 rfl).2
  -- what stands behind both determiners names the same class alone
  have behind : (Sample.ontology.namesakes (woman 0)).eraseDups = [⟨"Female", some 6581072⟩] :=
    (PatternIndex.namedClasses_eq (compiledFrom_of_ofOntology built) (woman 0)).symm.trans bare
  have drops : (woman 2).drop 2 = woman 0 := rfl
  rw [named] at once
  rw [drops, behind] at twice
  exact ⟨provider, built, once, twice⟩

/-- With two determiners in front of it, a woman is the name of no class, but a node of a class. -/
theorem valueNode_ne_namedClasses_woman :
    ∃ provider, ofOntology Sample.ontology {} = .ok provider ∧
      provider.attributes (woman 2) = [] ∧ provider.index.namedClasses (woman 2) = [] ∧
      ∃ e, Making.outcome (provider.valueNode (woman 2)) ⟨0⟩ = (.ok ((Node.var 0).and e), ⟨1⟩) ∧
        e.disjuncts = [.isA ⟨"isA", some 31⟩ ⟨"Female", some 6581072⟩] := by
  have computed : (ofOntology Sample.ontology {}).toOption.map (fun provider =>
      (provider.attributes (woman 2), provider.index.namedClasses (woman 2),
        provider.index.namedClasses (woman 1))) =
      some ([], [], [⟨"Female", some 6581072⟩]) := by decide +kernel
  obtain ⟨provider, built, found⟩ := map_toOption_eq_some.mp computed
  simp only [Prod.mk.injEq] at found
  obtain ⟨plain, unnamed, named⟩ := found
  have answers := answersClasses_valueNode built instanceProperty?_sample plain ⟨0⟩
  have stripped : ({} : Settings).tags.stripDeterminer (woman 2) = woman 1 := rfl
  rw [stripped, named] at answers
  exact ⟨provider, built, plain, unnamed, answers.instances (List.cons_ne_nil _ _)⟩

end Provider

end PhraseGraph
