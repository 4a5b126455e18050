import PhraseGraph.Pattern.Basic
import PhraseGraph.Ontology.Catalog

/-!
# PhraseGraph.Ontology.Basic

Classes and properties of a domain, with the patterns that name them in phrases.

An ontology is made by a list of declarations. To declare a name again replaces its element and
keeps its place; the order of the elements is the order in which ambiguous matches are reported.
Designated elements are kept as names and looked up when they are asked for.
-/

namespace PhraseGraph

/-- How a concrete knowledge base refers to the elements of an ontology. -/
structure KnowledgeBase where
  ClassKey : Type
  PropertyKey : Type
  IndividualKey : Type
  [classKeyEq : DecidableEq ClassKey]
  [propertyKeyEq : DecidableEq PropertyKey]
  [individualKeyEq : DecidableEq IndividualKey]

attribute [instance] KnowledgeBase.classKeyEq KnowledgeBase.propertyKeyEq
  KnowledgeBase.individualKeyEq

abbrev KnowledgeBase.numbered : KnowledgeBase := ⟨Nat, Nat, Nat⟩

variable {κ : KnowledgeBase}

/-! ### Properties -/

inductive Comparison where
  | greaterThan
  | lessThan
  deriving DecidableEq

inductive Order where
  | ascending
  | descending
  deriving DecidableEq

inductive Direction where
  | incoming
  | outgoing
  deriving DecidableEq

/-- A pattern that trails the phrase of a property, such as "in" or "before". -/
inductive FilterPattern where
  | named (pattern : Pattern)
  /-- The value of the property is compared, as in "born before 1950". -/
  | comparative (pattern : Pattern) (comparison : Comparison)
  deriving DecidableEq

def FilterPattern.pattern : FilterPattern → Pattern
  | .named p => p
  | .comparative p _ => p

def FilterPattern.comparison? : FilterPattern → Option Comparison
  | .named _ => none
  | .comparative _ c => some c

inductive PropertyPattern where
  /-- Names the property, "died". -/
  | named (pattern : Pattern)
  /-- Names the property followed backwards, "written by". -/
  | inverse (pattern : Pattern) (filter : Option FilterPattern)
  /-- Introduces the value of the property, "born in". -/
  | value (pattern : Pattern) (filter : Option FilterPattern)
  /-- An adjective after the copula, "is tall". -/
  | adjective (headword : String) (filter : Option FilterPattern)
  /-- The comparative of an adjective, "older than". -/
  | comparative (headword : String) (comparison : Comparison)
  /-- The superlative of an adjective, "oldest". -/
  | superlative (headword : String) (order : Order)
  deriving DecidableEq

structure Property (κ : KnowledgeBase) where
  id : String
  mapping : Option κ.PropertyKey := none
  patterns : List PropertyPattern := []

/-- A property as it stands in a fragment. -/
structure PropertyRef (κ : KnowledgeBase) where
  id : String
  mapping : Option κ.PropertyKey := none
  deriving DecidableEq

def Property.ref (p : Property κ) : PropertyRef κ := ⟨p.id, p.mapping⟩

/-! ### Classes -/

/-- A property through which the instances of a class relate to something, as in "Obama's
children". -/
structure Relation where
  property : String
  direction : Direction
  /-- What follows the pattern of the class, "of birth" in "place of birth". -/
  pattern : Option Pattern := none
  deriving DecidableEq

inductive Segment (κ : KnowledgeBase) where
  | outgoing (property : String)
  | incoming (property : String)
  | individual (key : κ.IndividualKey)
  deriving DecidableEq

/-- Something that has the same instances as a class. -/
inductive Equivalent (κ : KnowledgeBase) where
  | sameAs (id : String)
  | chain (segments : List (Segment κ))
  deriving DecidableEq

structure Class (κ : KnowledgeBase) where
  id : String
  mapping : Option κ.ClassKey := none
  names : List Pattern := []
  relations : List Relation := []
  superclasses : List String := []
  equivalents : List (Equivalent κ) := []

structure ClassRef (κ : KnowledgeBase) where
  id : String
  mapping : Option κ.ClassKey := none
  deriving DecidableEq

def Class.ref (c : Class κ) : ClassRef κ := ⟨c.id, c.mapping⟩

/-! ### Ontologies -/

structure Ontology (κ : KnowledgeBase) where
  classes : Catalog (Class κ) Class.id
  properties : Catalog (Property κ) Property.id
  /-- The name of the property that leads from an instance to its class. -/
  instanceId : Option String
  labelId : Option String
  personId : Option String

namespace Ontology

def empty : Ontology κ := ⟨.empty, .empty, none, none, none⟩

def class? (o : Ontology κ) (id : String) : Option (Class κ) := o.classes.find? id

def property? (o : Ontology κ) (id : String) : Option (Property κ) := o.properties.find? id

def instanceProperty? (o : Ontology κ) : Option (Property κ) := o.instanceId.bind o.property?

def labelProperty? (o : Ontology κ) : Option (Property κ) := o.labelId.bind o.property?

def personClass? (o : Ontology κ) : Option (Class κ) := o.personId.bind o.class?

end Ontology

inductive Declaration (κ : KnowledgeBase) where
  | ofClass (c : Class κ)
  | ofProperty (p : Property κ)
  | instanceProperty (id : String)
  | labelProperty (id : String)
  | personClass (id : String)

namespace Ontology

def declare (o : Ontology κ) : Declaration κ → Ontology κ
  | .ofClass c => { o with classes := o.classes.insert c }
  | .ofProperty p => { o with properties := o.properties.insert p }
  | .instanceProperty id => { o with instanceId := some id }
  | .labelProperty id => { o with labelId := some id }
  | .personClass id => { o with personId := some id }

def ofDeclarations (ds : List (Declaration κ)) : Ontology κ := ds.foldl declare empty

end Ontology

end PhraseGraph
