import PhraseGraph.Proofs.Matcher.Full
import PhraseGraph.Proofs.Ontology.Ancestry
import PhraseGraph.Proofs.Outcomes
import PhraseGraph.Index

/-!
# PhraseGraph.Proofs.Index.Relations

The relations that an index finds for a phrase.

A phrase names a relation of a class if it consists of a name of the class and of what the relation
asks for. The index finds the relations of all classes, own and inherited ones.

## Main statements

`Ontology.matching_relationEntries`: which entries match a phrase, in order.
`PatternIndex.relationProperties_eq`: the properties that are found for a phrase.
-/

namespace PhraseGraph

variable {κ : KnowledgeBase}

/-- What a relation asks for behind the name of the class. -/
def Relation.language (r : Relation) : Language Token :=
  match r.pattern with
  | some p => p.language
  | none => 1

namespace Ontology

variable {o : Ontology κ}

/-- The property of a relation, if there is one of its name. -/
def directed? (o : Ontology κ) (r : Relation) : Option (DirectedProperty κ) :=
  (o.property? r.property).map fun p => ⟨p.ref, r.direction⟩

open Classical in
/-- The properties of relations that a phrase names, once for each name of a class with which it
does so. The classes stand in order of declaration, the relations of each as they are listed. -/
noncomputable def namedRelations (o : Ontology κ) (inherited : Class κ → List Relation)
    (phrase : List Token) : List (DirectedProperty κ) :=
  o.classes.toList.flatMap fun c => (inherited c).flatMap fun r =>
    (c.names.filter fun p => phrase ∈ p.language * r.language).filterMap fun _ => o.directed? r

theorem mem_namedRelations {inherited : Class κ → List Relation} {phrase : List Token}
    {d : DirectedProperty κ} :
    d ∈ o.namedRelations inherited phrase ↔ ∃ c ∈ o.classes.toList, ∃ r ∈ inherited c,
      ∃ p ∈ c.names, o.directed? r = some d ∧ phrase ∈ p.language * r.language := by
  classical
  simp only [namedRelations, List.mem_flatMap, List.mem_filterMap, List.mem_filter,
    decide_eq_true_eq]
  constructor
  · rintro ⟨c, declared, r, related, p, ⟨named, matched⟩, found⟩
    exact ⟨c, declared, r, related, p, named, found, matched⟩
  · rintro ⟨c, declared, r, related, p, named, found, matched⟩
    exact ⟨c, declared, r, related, p, ⟨named, matched⟩, found⟩

end Ontology

namespace Matcher

variable {ρ α : Type}

theorem matching_flatMap (entries : α → List (Pattern × ρ)) (as : List α) (ts : List Token) :
    matching (as.flatMap entries) ts = as.flatMap fun a => matching (entries a) ts := by
  simp only [matching, List.filter_flatMap, List.map_flatMap]

open Classical in
theorem matching_map {f : Pattern → Pattern} {l : Pattern → Language Token}
    (same : ∀ p, (f p).language = l p) (names : List Pattern) (r : ρ) (ts : List Token) :
    matching (names.map fun p => (f p, r)) ts =
      (names.filter fun p => ts ∈ l p).map fun _ => r := by
  have sameNames : (fun p => decide (ts ∈ (f p).language)) = fun p => decide (ts ∈ l p) := by
    funext p
    rw [same p]
  rw [matching, List.filter_map, List.map_map]
  exact congrArg (fun q => (names.filter q).map fun _ => r) sameNames

end Matcher

namespace Ontology

variable {o : Ontology κ}

theorem directed?_of_directed {r : Relation} {d : DirectedProperty κ}
    (returned : o.directed r.property r.direction = .ok d) : o.directed? r = some d := by
  rw [directed] at returned
  split at returned
  · next p found =>
    cases returned
    rw [directed?, found]
    rfl
  · cases returned

open Classical in
/-- The names of a class that go with a relation in a phrase. -/
theorem matching_relationEntriesOf {c : Class κ} {r : Relation}
    {entries : List (Pattern × DirectedProperty κ)}
    (returned : o.relationEntriesOf c r = .ok entries) (phrase : List Token) :
    Matcher.matching entries phrase =
      (c.names.filter fun p => phrase ∈ p.language * r.language).filterMap fun _ =>
        o.directed? r := by
  obtain ⟨d, found, rfl⟩ := map_eq_ok.mp returned
  rw [directed?_of_directed found, List.filterMap_eq_map']
  apply Matcher.matching_map
  intro p
  rw [Relation.language]
  cases r.pattern with
  | none => exact (mul_one p.language).symm
  | some after => exact Pattern.language_followedBy p after

open Classical in
theorem matching_relationEntriesAt {c : Class κ} {entries : List (Pattern × DirectedProperty κ)}
    (returned : o.relationEntriesAt c = .ok entries) :
    ∃ rs, o.relations c = .ok rs ∧ ∀ phrase, Matcher.matching entries phrase = rs.flatMap fun r =>
      (c.names.filter fun p => phrase ∈ p.language * r.language).filterMap fun _ =>
        o.directed? r := by
  obtain ⟨rs, resolved, returned⟩ := bind_eq_ok.mp returned
  obtain ⟨each, listed, returned⟩ := bind_eq_ok.mp returned
  cases returned
  obtain ⟨entriesOf, ofRelation, rfl⟩ := mapM_eq_ok listed
  refine ⟨rs, mapError_eq_ok.mp resolved, fun phrase => ?_⟩
  rw [← List.flatMap_def, Matcher.matching_flatMap]
  exact List.flatMap_congr fun r related => matching_relationEntriesOf (ofRelation r related) phrase

/-- The entries of an index for relations, as far as a phrase matches them. -/
theorem matching_relationEntries {entries : List (Pattern × DirectedProperty κ)}
    (returned : o.relationEntries = .ok entries) :
    ∃ inherited : Class κ → List Relation,
      (∀ c ∈ o.classes.toList, o.relations c = .ok (inherited c)) ∧
      ∀ phrase, Matcher.matching entries phrase = o.namedRelations inherited phrase := by
  obtain ⟨each, listed, returned⟩ := bind_eq_ok.mp returned
  cases returned
  obtain ⟨entriesAt, atClass, rfl⟩ := mapM_eq_ok listed
  have resolved := fun c declared => matching_relationEntriesAt (atClass c declared)
  -- the relations of each class are the ones that were resolved for its entries
  choose! inherited related matched using resolved
  refine ⟨inherited, related, fun phrase => ?_⟩
  rw [← List.flatMap_def, Matcher.matching_flatMap]
  exact List.flatMap_congr fun c declared => matched c declared phrase

end Ontology

namespace PatternIndex

variable {o : Ontology κ} {tags : Tagset} {index : PatternIndex κ}

variable (o tags index) in
/-- What the fields of an index are compiled from. -/
structure CompiledFrom : Prop where
  ontology_eq : index.ontology = o
  tags_eq : index.tags = tags
  named : Matcher.compile .full (o.propertyEntries namedPhrase?) = .ok index.named
  inverse : Matcher.compile .full (o.propertyEntries inversePhrase?) = .ok index.inverse
  value : Matcher.compile .full (o.propertyEntries valuePhrase?) = .ok index.value
  adjective :
    Matcher.compile .full (o.propertyEntries (adjectivePhrase? tags)) = .ok index.adjective
  attributes :
    Matcher.compile .leading (o.propertyEntries (attributePhrase? tags)) = .ok index.attributes
  comparative :
    Matcher.compile .full (o.propertyEntries (comparativePhrase? tags)) = .ok index.comparative
  classes : Matcher.compile .full o.classEntries = .ok index.classes
  relations : ∃ entries, o.relationEntries = .ok entries ∧
    Matcher.compile .full entries = .ok index.relations

theorem compiledFrom_of_ofOntology (built : ofOntology o tags = .ok index) :
    CompiledFrom o tags index := by
  rw [ofOntology] at built
  obtain ⟨named, isNamed, built⟩ := bind_eq_ok.mp built
  obtain ⟨inverse, isInverse, built⟩ := bind_eq_ok.mp built
  obtain ⟨value, isValue, built⟩ := bind_eq_ok.mp built
  obtain ⟨adjective, isAdjective, built⟩ := bind_eq_ok.mp built
  obtain ⟨attributes, areAttributes, built⟩ := bind_eq_ok.mp built
  obtain ⟨comparative, isComparative, built⟩ := bind_eq_ok.mp built
  obtain ⟨classes, areClasses, built⟩ := bind_eq_ok.mp built
  obtain ⟨entries, listed, built⟩ := bind_eq_ok.mp built
  obtain ⟨relations, areRelations, built⟩ := bind_eq_ok.mp built
  obtain ⟨segments, -, built⟩ := bind_eq_ok.mp built
  cases built
  exact {
    ontology_eq := rfl
    tags_eq := rfl
    named := mapError_eq_ok.mp isNamed
    inverse := mapError_eq_ok.mp isInverse
    value := mapError_eq_ok.mp isValue
    adjective := mapError_eq_ok.mp isAdjective
    attributes := mapError_eq_ok.mp areAttributes
    comparative := mapError_eq_ok.mp isComparative
    classes := mapError_eq_ok.mp areClasses
    relations := ⟨entries, listed, mapError_eq_ok.mp areRelations⟩ }

/-- The relations of a phrase: each property once, in the order in which classes are declared, their
relations are resolved and their names are listed. -/
theorem relationProperties_eq (built : ofOntology o tags = .ok index) :
    ∃ inherited : Class κ → List Relation,
      (∀ c ∈ o.classes.toList, o.relations c = .ok (inherited c) ∧ o.Inherits c (inherited c)) ∧
      ∀ phrase, index.relationProperties phrase =
          (o.namedRelations inherited (tags.stripDeterminer phrase)).eraseDups ∧
        (index.relationProperties phrase).Nodup ∧
        ∀ d, d ∈ index.relationProperties phrase ↔
          ∃ c ∈ o.classes.toList, ∃ p ∈ c.names, ∃ n, ∃ a ∈ o.generation c n, ∃ r ∈ a.relations,
            o.directed? r = some d ∧ tags.stripDeterminer phrase ∈ p.language * r.language := by
  have fields := compiledFrom_of_ofOntology built
  obtain ⟨entries, listed, compiled⟩ := fields.relations
  obtain ⟨inherited, resolved, matched⟩ := Ontology.matching_relationEntries listed
  have inherits (c : Class κ) (declared : c ∈ o.classes.toList) : o.Inherits c (inherited c) :=
    Ontology.inherits_of_relations declared (resolved c declared)
  refine ⟨inherited, fun c declared => ⟨resolved c declared, inherits c declared⟩, fun phrase => ?_⟩
  have found : index.relationProperties phrase =
      (o.namedRelations inherited (tags.stripDeterminer phrase)).eraseDups := by
    rw [relationProperties, fields.tags_eq, Matcher.results_full compiled, matched]
  refine ⟨found, found ▸ nodup_eraseDups _, fun d => ?_⟩
  rw [found, List.mem_eraseDups, Ontology.mem_namedRelations]
  constructor
  · rintro ⟨c, declared, r, related, p, named, property, matched⟩
    obtain ⟨n, a, ancestor, own⟩ := ((inherits c declared).mem_iff r).mp related
    exact ⟨c, declared, p, named, n, a, ancestor, r, own, property, matched⟩
  · rintro ⟨c, declared, p, named, n, a, ancestor, r, own, property, matched⟩
    have related := ((inherits c declared).mem_iff r).mpr ⟨n, a, ancestor, own⟩
    exact ⟨c, declared, r, related, p, named, property, matched⟩

def offspring : Relation :=
  { property := "hasChild", direction := .incoming, pattern := some (.headword "of") }

def child : Class .numbered :=
  { id := "Child", names := [.headword "child"], relations := [offspring] }

def daughter : Class .numbered :=
  { id := "Daughter", names := [.headword "daughter"], superclasses := ["Child"] }

def family : Ontology .numbered :=
  .ofDeclarations [.ofProperty { id := "hasChild", mapping := some 40 }, .ofClass child,
    .ofClass daughter]

/-- A class takes part in the relations of its superclass. -/
theorem relationProperties_daughter :
    ∃ index, ofOntology family {} = .ok index ∧ ⟨⟨"hasChild", some 40⟩, .incoming⟩ ∈
      index.relationProperties [⟨"the", "DT", "the"⟩, ⟨"daughter", "NN", "daughter"⟩,
        ⟨"of", "IN", "of"⟩] := by
  have compiles : (ofOntology family {}).toOption.isSome = true := by decide +kernel
  cases built : ofOntology family {} with
  | error e =>
    rw [built] at compiles
    cases compiles
  | ok index =>
    refine ⟨index, rfl, ?_⟩
    obtain ⟨inherited, -, found⟩ := relationProperties_eq built
    have declared : daughter ∈ family.classes.toList :=
      List.mem_cons_of_mem child List.mem_cons_self
    have inherits : child ∈ family.generation daughter 1 := List.mem_cons_self
    have named : [(⟨"daughter", "NN", "daughter"⟩ : Token)] ∈
        (Pattern.headword "daughter").language := ⟨_, by decide, rfl⟩
    have related : [(⟨"of", "IN", "of"⟩ : Token)] ∈ offspring.language := ⟨_, by decide, rfl⟩
    apply ((found _).2.2 _).mpr
    exact ⟨daughter, declared, .headword "daughter", List.mem_singleton_self _, 1, child, inherits,
      offspring, List.mem_singleton_self _, by decide, Language.append_mem_mul named related⟩

end PatternIndex

end PhraseGraph
