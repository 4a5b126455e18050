import PhraseGraph.Proofs.Index.Relations

/-!
# PhraseGraph.Proofs.Index.Consistency

When an ontology can be indexed, and what is reported of it otherwise.

An ontology is consistent if its patterns compile and every name in it stands for something. That
is said of each class by itself, although the index looks at a class together with all its
ancestors.

## Main statements

`Ontology.failsWith_relationEntries`: what is reported of the relations, class by class.
`Ontology.silent_relationReport_iff`: nothing is reported of a class and its ancestors if the
superclasses and the properties that they name are defined.
`PatternIndex.ofOntology_outcome`: the index of an ontology, or the first report.
-/

namespace PhraseGraph

variable {κ : KnowledgeBase}

/-! ### Names -/

/-- A name that has to stand for an element of the ontology. -/
inductive Reference where
  | ofClass (id : String)
  | ofProperty (id : String)

/-- The property that a segment names, none if it is an individual. -/
def Segment.reference? : Segment κ → Option Reference
  | .outgoing id => some (.ofProperty id)
  | .incoming id => some (.ofProperty id)
  | .individual _ => none

def Equivalent.references : Equivalent κ → List Reference
  | .sameAs id => [.ofClass id]
  | .chain segments => segments.filterMap Segment.reference?

def Relation.reference (r : Relation) : Reference := .ofProperty r.property

namespace Ontology

variable (o : Ontology κ)

def Defines : Reference → Prop
  | .ofClass id => ∃ c, o.class? id = some c
  | .ofProperty id => ∃ p, o.property? id = some p

/-- What is reported of a name that stands for nothing. -/
def fault? : Reference → Option IndexError
  | .ofClass id => if (o.class? id).isSome then none else some (.undefinedClass id)
  | .ofProperty id => if (o.property? id).isSome then none else some (.undefinedProperty id)

/-! ### Reports -/

/-- What is reported of patterns that do not compile. -/
def PatternReport {ρ : Type} (mode : MatchMode) (entries : List (Pattern × ρ)) (e : IndexError) :
    Prop :=
  ∃ cause, Matcher.compile mode entries = .error cause ∧ e = .pattern cause

/-- What is reported of the superclasses above a class: the first that is not defined, nearer ones
before further ones and otherwise in the order of declaration. -/
def SuperclassReport (c : Class κ) (e : IndexError) : Prop :=
  ∃ n id, (∀ k < n, ∀ d ∈ o.generation c k, ∀ id ∈ d.superclasses, o.isUndefined id = false) ∧
    ((o.generation c n).flatMap Class.superclasses).find? o.isUndefined = some id ∧
    e = .undefinedClass id

/-- The relations of a class as they are resolved, none if they cannot be. -/
def resolved (c : Class κ) : List Relation := (o.relations c).toOption.getD []

/-- What is reported of the relations of a class: the first of them without a property. -/
def PropertyReport (c : Class κ) (e : IndexError) : Prop :=
  ((o.resolved c).map Relation.reference).findSome? o.fault? = some e

def RelationReport (c : Class κ) : IndexError → Prop :=
  FirstOf [o.SuperclassReport c, o.PropertyReport c]

/-- What is reported of the equivalents of all classes: the first name that stands for nothing. -/
def EquivalentReport (e : IndexError) : Prop :=
  ((o.classes.toList.flatMap Class.equivalents).flatMap Equivalent.references).findSome? o.fault? =
    some e

/-- Each name of a class, followed by what a relation of the class asks for, with the property of
the relation. -/
def relationPhrases : List (Pattern × DirectedProperty κ) :=
  o.classes.toList.flatMap fun c => (o.resolved c).flatMap fun r =>
    (o.directed? r).toList.flatMap fun d => c.names.map fun p =>
      (match r.pattern with
        | some after => p.followedBy after
        | none => p, d)

/-- All that may be reported of an ontology, in order. -/
def reports (tags : Tagset) : List (IndexError → Prop) := [
  PatternReport .full (o.propertyEntries namedPhrase?),
  PatternReport .full (o.propertyEntries inversePhrase?),
  PatternReport .full (o.propertyEntries valuePhrase?),
  PatternReport .full (o.propertyEntries (adjectivePhrase? tags)),
  PatternReport .leading (o.propertyEntries (attributePhrase? tags)),
  PatternReport .full (o.propertyEntries (comparativePhrase? tags)),
  PatternReport .full o.classEntries,
  FirstOf (o.classes.toList.map o.RelationReport),
  PatternReport .full o.relationPhrases,
  o.EquivalentReport]

/-! ### Consistency -/

def Compiles {ρ : Type} (mode : MatchMode) (entries : List (Pattern × ρ)) : Prop :=
  ∃ m, Matcher.compile mode entries = .ok m

/-- The patterns of an ontology compile, and each name that a class declares stands for something. -/
structure IsConsistent (tags : Tagset) : Prop where
  named : Compiles .full (o.propertyEntries namedPhrase?)
  inverse : Compiles .full (o.propertyEntries inversePhrase?)
  value : Compiles .full (o.propertyEntries valuePhrase?)
  adjective : Compiles .full (o.propertyEntries (adjectivePhrase? tags))
  attributes : Compiles .leading (o.propertyEntries (attributePhrase? tags))
  comparative : Compiles .full (o.propertyEntries (comparativePhrase? tags))
  classes : Compiles .full o.classEntries
  relations : Compiles .full o.relationPhrases
  superclasses : ∀ c ∈ o.classes.toList, ∀ id ∈ c.superclasses, o.Defines (.ofClass id)
  properties : ∀ c ∈ o.classes.toList, ∀ r ∈ c.relations, o.Defines r.reference
  equivalents : ∀ c ∈ o.classes.toList, ∀ equivalent ∈ c.equivalents,
    ∀ reference ∈ equivalent.references, o.Defines reference

variable {o} {c : Class κ}

theorem fault?_eq_none {reference : Reference} : o.fault? reference = none ↔ o.Defines reference := by
  cases reference with
  | ofClass id => simp [fault?, Defines, Option.isSome_iff_exists]
  | ofProperty id => simp [fault?, Defines, Option.isSome_iff_exists]

theorem findSome?_fault?_eq_none {references : List Reference} :
    references.findSome? o.fault? = none ↔ ∀ reference ∈ references, o.Defines reference := by
  simp only [List.findSome?_eq_none_iff, fault?_eq_none]

theorem defines_ofClass {id : String} : o.Defines (.ofClass id) ↔ o.isUndefined id = false :=
  isUndefined_eq_false.symm

/-! ### Patterns -/

theorem failsWith_compile {ρ : Type} (mode : MatchMode) (entries : List (Pattern × ρ)) :
    FailsWith (PatternIndex.compile mode entries) (PatternReport mode entries) :=
  FailsWith.mapError (fun _ => Iff.rfl) IndexError.pattern

theorem silent_patternReport_iff {ρ : Type} {mode : MatchMode} {entries : List (Pattern × ρ)} :
    (∀ e, ¬PatternReport mode entries e) ↔ Compiles mode entries := by
  rw [← (failsWith_compile mode entries).exists_ok_iff]
  simp only [PatternIndex.compile, mapError_eq_ok, Compiles]

/-! ### Relations -/

/-- There is only one first superclass that is not defined. -/
theorem SuperclassReport.unique {e e' : IndexError} (first : o.SuperclassReport c e)
    (second : o.SuperclassReport c e') : e = e' := by
  obtain ⟨n, id, earlier, found, rfl⟩ := first
  obtain ⟨n', id', earlier', found', rfl⟩ := second
  -- a generation with an undefined superclass is not before the first of its kind
  have notBefore {m m' : Nat} {missing : String}
      (defined : ∀ k < m', ∀ d ∈ o.generation c k, ∀ id ∈ d.superclasses, o.isUndefined id = false)
      (found : ((o.generation c m).flatMap Class.superclasses).find? o.isUndefined = some missing) :
      m' ≤ m := by
    by_contra before
    obtain ⟨d, generation, named⟩ := List.mem_flatMap.mp (List.mem_of_find?_eq_some found)
    have undefined := List.find?_some found
    rw [defined m (Nat.lt_of_not_le before) d generation missing named] at undefined
    cases undefined
  obtain rfl := Nat.le_antisymm (notBefore earlier found') (notBefore earlier' found)
  rw [found] at found'
  cases found'
  rfl

theorem failsWith_relations (declared : c ∈ o.classes.toList) :
    FailsWith ((o.relations c).mapError fun e => IndexError.undefinedClass e.id)
      (o.SuperclassReport c) := by
  intro e
  rcases (level_zero (class?_of_mem declared)).outcome with
    ⟨cs, walk, walked⟩ | ⟨missing, walk, n, earlier, found⟩
  · rw [relations_of_walk walk]
    constructor
    · exact nofun
    · rintro ⟨n, id, -, found, -⟩
      obtain ⟨d, generation, named⟩ := List.mem_flatMap.mp (List.mem_of_find?_eq_some found)
      have undefined := List.find?_some found
      rw [walked.defined n d generation id named] at undefined
      cases undefined
  · have report : o.SuperclassReport c (.undefinedClass missing.id) :=
      ⟨n, missing.id, earlier, found, rfl⟩
    rw [relations_of_failed_walk walk, Except.mapError, Except.error.injEq]
    constructor
    · rintro rfl
      exact report
    · exact report.unique

theorem resolved_eq {rs : List Relation} (returned : o.relations c = .ok rs) : o.resolved c = rs := by
  rw [resolved, returned]
  rfl

theorem failsWith_directed (id : String) (direction : Direction) :
    FailsWith (o.directed id direction) fun e => o.fault? (.ofProperty id) = some e := by
  intro e
  rw [directed, fault?]
  cases o.property? id <;> simp

theorem failsWith_relationEntriesOf (r : Relation) :
    FailsWith (o.relationEntriesOf c r) fun e => o.fault? r.reference = some e :=
  (failsWith_directed r.property r.direction).map _

theorem failsWith_relationEntriesAt (declared : c ∈ o.classes.toList) :
    FailsWith (o.relationEntriesAt c) (o.RelationReport c) := by
  refine (failsWith_relations declared).bind fun rs found => ?_
  intro e
  rw [firstOf_singleton, PropertyReport, resolved_eq (mapError_eq_ok.mp found), ← firstOf_map_iff,
    List.map_map]
  exact ((FailsWith.mapM fun r _ => failsWith_relationEntriesOf r).map List.flatten) e

theorem failsWith_relationEntries :
    FailsWith o.relationEntries (FirstOf (o.classes.toList.map o.RelationReport)) :=
  (FailsWith.mapM fun _ declared => failsWith_relationEntriesAt declared).map List.flatten

/-- The entries of all relations, told without a step that may fail. -/
theorem relationEntries_eq {entries : List (Pattern × DirectedProperty κ)}
    (returned : o.relationEntries = .ok entries) : entries = o.relationPhrases := by
  obtain ⟨each, listed, returned⟩ := bind_eq_ok.mp returned
  cases returned
  obtain ⟨entriesAt, atClass, rfl⟩ := mapM_eq_ok listed
  rw [← List.flatMap_def]
  refine List.flatMap_congr fun c declared => ?_
  obtain ⟨rs, found, returned⟩ := bind_eq_ok.mp (atClass c declared)
  obtain ⟨each, listed, returned⟩ := bind_eq_ok.mp returned
  obtain ⟨entriesOf, ofRelation, rfl⟩ := mapM_eq_ok listed
  rw [resolved_eq (mapError_eq_ok.mp found), ← Except.ok.inj returned, ← List.flatMap_def]
  refine List.flatMap_congr fun r related => ?_
  obtain ⟨d, property, composed⟩ := map_eq_ok.mp (ofRelation r related)
  rw [← composed, directed?_of_directed property]
  exact (List.flatMap_singleton ..).symm

theorem generation_declared (declared : c ∈ o.classes.toList) {n : Nat} :
    ∀ d ∈ o.generation c n, d ∈ o.classes.toList := by
  intro d generation
  cases n with
  | zero => exact List.mem_singleton.mp generation ▸ declared
  | succ n =>
    obtain ⟨-, -, id, -, found⟩ := mem_generation_succ.mp generation
    exact Catalog.mem_of_find? found

theorem mem_resolved (declared : c ∈ o.classes.toList) (silent : ∀ e, ¬o.SuperclassReport c e)
    {r : Relation} : r ∈ o.resolved c ↔ ∃ n, ∃ d ∈ o.generation c n, r ∈ d.relations := by
  obtain ⟨rs, found⟩ := (failsWith_relations declared).exists_ok_iff.mpr silent
  have returned := mapError_eq_ok.mp found
  rw [resolved_eq returned]
  exact (inherits_of_relations declared returned).mem_iff r

theorem silent_propertyReport_iff :
    (∀ e, ¬o.PropertyReport c e) ↔ ∀ r ∈ o.resolved c, o.Defines r.reference := by
  simp only [PropertyReport, ← Option.eq_none_iff_forall_ne_some, findSome?_fault?_eq_none,
    List.forall_mem_map]

theorem defines_of_silent_superclassReport (silent : ∀ e, ¬o.SuperclassReport c e) :
    ∀ id ∈ c.superclasses, o.Defines (.ofClass id) := by
  intro id named
  rw [defines_ofClass]
  -- an undefined superclass would be found in the generation of the class itself
  by_contra undefined
  have reported : ∃ first, c.superclasses.find? o.isUndefined = some first := by
    rw [← Option.isSome_iff_exists, List.find?_isSome]
    exact ⟨id, named, by simpa using undefined⟩
  obtain ⟨first, found⟩ := reported
  refine silent (.undefinedClass first) ⟨0, first, by simp, ?_, rfl⟩
  rw [generation, List.flatMap_singleton]
  exact found

theorem silent_superclassReport (declared : c ∈ o.classes.toList)
    (defined : ∀ d ∈ o.classes.toList, ∀ id ∈ d.superclasses, o.Defines (.ofClass id)) :
    ∀ e, ¬o.SuperclassReport c e := by
  rintro e ⟨n, id, -, found, rfl⟩
  obtain ⟨d, generation, named⟩ := List.mem_flatMap.mp (List.mem_of_find?_eq_some found)
  have undefined := List.find?_some found
  have named := defined d (generation_declared declared d generation) id named
  rw [defines_ofClass.mp named] at undefined
  cases undefined

/-- Nothing is reported of any class together with what is above it if everything that each class
names by itself is defined. -/
theorem silent_relationReport_iff :
    (∀ c ∈ o.classes.toList, ∀ e, ¬o.RelationReport c e) ↔
      (∀ c ∈ o.classes.toList, ∀ id ∈ c.superclasses, o.Defines (.ofClass id)) ∧
        ∀ c ∈ o.classes.toList, ∀ r ∈ c.relations, o.Defines r.reference := by
  simp only [RelationReport, forall_not_firstOf, List.forall_mem_cons, List.not_mem_nil,
    false_imp_iff, implies_true, and_true]
  constructor
  · intro silent
    refine ⟨fun c declared => defines_of_silent_superclassReport (silent c declared).1, ?_⟩
    intro c declared r own
    obtain ⟨above, properties⟩ := silent c declared
    have member := (mem_resolved declared above).mpr ⟨0, c, List.mem_singleton_self c, own⟩
    exact silent_propertyReport_iff.mp properties r member
  · rintro ⟨superclasses, properties⟩ c declared
    have above := silent_superclassReport declared superclasses
    refine ⟨above, silent_propertyReport_iff.mpr fun r member => ?_⟩
    -- an inherited relation is one that some class declares
    obtain ⟨n, d, generation, own⟩ := (mem_resolved declared above).mp member
    exact properties d (generation_declared declared d generation) r own

/-! ### Equivalents -/

/-- What is reported of names in turn is what is reported of all of them together. -/
theorem failsWith_references {α β : Type} {f : α → Except IndexError β}
    {referencesOf : α → List Reference} (as : List α)
    (each : ∀ a, FailsWith (f a) fun e => (referencesOf a).findSome? o.fault? = some e) :
    FailsWith (as.mapM f) fun e => (as.flatMap referencesOf).findSome? o.fault? = some e := by
  intro e
  beta_reduce
  rw [findSome?_flatMap, ← firstOf_map_iff]
  exact FailsWith.mapM (fun a _ => each a) e

theorem failsWith_chainSegments (segments : List (Segment κ)) :
    FailsWith (o.chainSegments segments) (FirstOf
      ((segments.filterMap Segment.reference?).map fun reference e => o.fault? reference = some e)) := by
  induction segments with
  | nil => exact FailsWith.ok
  | cons segment segments ih =>
    cases segment with
    | outgoing id => exact (failsWith_directed id .outgoing).bind fun d _ => ih.map (d :: ·)
    | incoming id => exact (failsWith_directed id .incoming).bind fun d _ => ih.map (d :: ·)
    | individual key => exact ih

theorem failsWith_equivalentSegments (c : Class κ) :
    FailsWith (o.equivalentSegments c) fun e =>
      (c.equivalents.flatMap Equivalent.references).findSome? o.fault? = some e := by
  refine FailsWith.map (failsWith_references c.equivalents fun equivalent e => ?_) List.flatten
  cases equivalent with
  | sameAs id =>
    beta_reduce
    rw [Equivalent.references, List.findSome?_singleton, fault?]
    cases found : o.class? id <;> simp [found]
  | chain segments =>
    beta_reduce
    rw [Equivalent.references, ← firstOf_map_iff]
    exact failsWith_chainSegments segments e

theorem silent_equivalentReport_iff :
    (∀ e, ¬o.EquivalentReport e) ↔ ∀ c ∈ o.classes.toList, ∀ equivalent ∈ c.equivalents,
      ∀ reference ∈ equivalent.references, o.Defines reference := by
  simp only [EquivalentReport, ← Option.eq_none_iff_forall_ne_some, findSome?_fault?_eq_none,
    List.mem_flatMap]
  constructor
  · intro defined c declared equivalent member reference listed
    exact defined reference ⟨equivalent, ⟨c, declared, member⟩, listed⟩
  · rintro defined reference ⟨equivalent, ⟨c, declared, member⟩, listed⟩
    exact defined c declared equivalent member reference listed

end Ontology

namespace PatternIndex

open Ontology

variable (o : Ontology κ) (tags : Tagset)

theorem failsWith_ofOntology : FailsWith (ofOntology o tags) (FirstOf (o.reports tags)) := by
  rw [ofOntology]
  refine (failsWith_compile _ _).bind fun named _ => ?_
  refine (failsWith_compile _ _).bind fun inverse _ => ?_
  refine (failsWith_compile _ _).bind fun value _ => ?_
  refine (failsWith_compile _ _).bind fun adjective _ => ?_
  refine (failsWith_compile _ _).bind fun attributes _ => ?_
  refine (failsWith_compile _ _).bind fun comparative _ => ?_
  refine (failsWith_compile _ _).bind fun classes _ => ?_
  refine failsWith_relationEntries.bind fun entries listed => ?_
  rw [← relationEntries_eq listed]
  refine (failsWith_compile _ _).bind fun relations _ => ?_
  intro e
  rw [firstOf_singleton, EquivalentReport, List.flatMap_assoc]
  refine FailsWith.map (failsWith_references _ fun c => ?_) _ e
  exact (failsWith_equivalentSegments c).map (c.id, ·)

theorem isConsistent_iff : o.IsConsistent tags ↔ ∀ e, ¬FirstOf (o.reports tags) e := by
  simp only [reports, forall_not_firstOf, List.forall_mem_cons, List.not_mem_nil, false_imp_iff,
    implies_true, and_true, silent_patternReport_iff, List.forall_mem_map,
    silent_relationReport_iff, silent_equivalentReport_iff]
  constructor
  · rintro ⟨named, inverse, value, adjective, attributes, comparative, classes, relations,
      superclasses, properties, equivalents⟩
    exact ⟨named, inverse, value, adjective, attributes, comparative, classes,
      ⟨superclasses, properties⟩, relations, equivalents⟩
  · rintro ⟨named, inverse, value, adjective, attributes, comparative, classes,
      ⟨superclasses, properties⟩, relations, equivalents⟩
    exact ⟨named, inverse, value, adjective, attributes, comparative, classes, relations,
      superclasses, properties, equivalents⟩

/-- The index of an ontology is made if the ontology is consistent. Otherwise the first report is
what is returned. -/
theorem ofOntology_outcome :
    ((∃ index, ofOntology o tags = .ok index) ↔ o.IsConsistent tags) ∧
      ∀ e, ofOntology o tags = .error e ↔ FirstOf (o.reports tags) e := by
  have fails := failsWith_ofOntology o tags
  exact ⟨fails.exists_ok_iff.trans (isConsistent_iff o tags).symm, fails⟩

end PatternIndex

end PhraseGraph
