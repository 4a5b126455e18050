import PhraseGraph.Fragment.Basic
import PhraseGraph.Matcher
import PhraseGraph.Ontology.Ancestry
import PhraseGraph.Tagset

/-!
# PhraseGraph.Index

The phrases of an ontology, compiled into one matcher for each way to use a phrase.

A phrase that names nothing has no results; looking up never fails. What can fail is the making
of the index: a matcher may not compile, and names may lack their element.
-/

namespace PhraseGraph

variable {κ : KnowledgeBase}

/-- A property, with the comparison that the filter of its phrase implies. -/
structure PropertyUsage (κ : KnowledgeBase) where
  property : PropertyRef κ
  comparison : Option Comparison
  deriving DecidableEq

structure ComparativeUsage (κ : KnowledgeBase) where
  property : PropertyRef κ
  comparison : Comparison
  deriving DecidableEq

/-- An adjective in front of the name of a class, with the order of a superlative. -/
structure Attribute (κ : KnowledgeBase) where
  property : PropertyRef κ
  order : Option Order
  deriving DecidableEq

/-- A property, with the way in which it is followed. -/
structure DirectedProperty (κ : KnowledgeBase) where
  property : PropertyRef κ
  direction : Direction
  deriving DecidableEq

def DirectedProperty.edge (d : DirectedProperty κ) (node : Node κ) : Edge κ :=
  match d.direction with
  | .outgoing => .outgoing d.property node
  | .incoming => .incoming node d.property

inductive IndexError where
  | undefinedProperty (id : String)
  | undefinedClass (id : String)
  | pattern (cause : BuildError)
  deriving DecidableEq

def IndexError.message : IndexError → String
  | .undefinedProperty id => "invalid property identifier: " ++ id
  | .undefinedClass id => "invalid class identifier: " ++ id
  | .pattern cause => cause.message

/-! ### Entries -/

section Entries

def filteredPattern (p : Pattern) : Option FilterPattern → Pattern
  | some filter => p.followedBy filter.pattern
  | none => p

def usageEntry (property : PropertyRef κ) (p : Pattern) (filter : Option FilterPattern) :
    Pattern × PropertyUsage κ :=
  (filteredPattern p filter, ⟨property, filter.bind FilterPattern.comparison?⟩)

variable (tags : Tagset) (property : PropertyRef κ)

def namedPhrase? : PropertyPattern → Option (Pattern × PropertyRef κ)
  | .named p => some (p, property)
  | _ => none

def inversePhrase? : PropertyPattern → Option (Pattern × PropertyUsage κ)
  | .inverse p filter => some (usageEntry property p filter)
  | _ => none

def valuePhrase? : PropertyPattern → Option (Pattern × PropertyUsage κ)
  | .value p filter => some (usageEntry property p filter)
  | _ => none

/-- The copula and an adjective, "is tall". -/
def predicate (headword : String) : Pattern :=
  tags.copulaPattern.followedBy (tags.adjectivePattern headword)

def adjectivePhrase? : PropertyPattern → Option (Pattern × PropertyUsage κ)
  | .adjective headword filter => some (usageEntry property (predicate tags headword) filter)
  | _ => none

def attributePhrase? : PropertyPattern → Option (Pattern × Attribute κ)
  | .adjective headword _ => some (tags.adjectivePattern headword, ⟨property, none⟩)
  | .superlative headword order => some (tags.superlativePattern headword, ⟨property, some order⟩)
  | _ => none

/-- A phrase in which the comparison cannot be left out: the copula and a comparative, "is older
than", or the copula and an adjective with a filter that compares. -/
def comparativePhrase? : PropertyPattern → Option (Pattern × ComparativeUsage κ)
  | .comparative headword comparison =>
    some (tags.copulaPattern.followedBy (tags.comparativePattern headword), ⟨property, comparison⟩)
  | .adjective headword (some (.comparative filter comparison)) =>
    some ((predicate tags headword).followedBy filter, ⟨property, comparison⟩)
  | _ => none

end Entries

namespace Ontology

variable (o : Ontology κ)

/-- The entries that the patterns of the properties make, in order of declaration. -/
def propertyEntries {ρ : Type} (phrase? : PropertyRef κ → PropertyPattern → Option (Pattern × ρ)) :
    List (Pattern × ρ) :=
  o.properties.toList.flatMap fun p => p.patterns.filterMap (phrase? p.ref)

def classEntries : List (Pattern × ClassRef κ) :=
  o.classes.toList.flatMap fun c => c.names.map fun p => (p, c.ref)

def directed (id : String) (direction : Direction) : Except IndexError (DirectedProperty κ) :=
  match o.property? id with
  | some p => .ok ⟨p.ref, direction⟩
  | none => .error (.undefinedProperty id)

/-- The entries of a relation of a class: each name of the class, followed by what the relation
asks for. -/
def relationEntriesOf (c : Class κ) (r : Relation) :
    Except IndexError (List (Pattern × DirectedProperty κ)) :=
  (o.directed r.property r.direction).map fun d =>
    c.names.map fun p =>
      (match r.pattern with
        | some after => p.followedBy after
        | none => p, d)

/-- The entries of all relations of a class, its own and inherited ones. -/
def relationEntriesAt (c : Class κ) : Except IndexError (List (Pattern × DirectedProperty κ)) := do
  let relations ← (o.relations c).mapError fun e => .undefinedClass e.id
  let entries ← relations.mapM (o.relationEntriesOf c)
  return entries.flatten

def relationEntries : Except IndexError (List (Pattern × DirectedProperty κ)) := do
  let entries ← o.classes.toList.mapM o.relationEntriesAt
  return entries.flatten

/-- The properties of a chain, without the individuals in it. -/
def chainSegments : List (Segment κ) → Except IndexError (List (DirectedProperty κ))
  | [] => .ok []
  | .outgoing id :: segments => do
    let d ← o.directed id .outgoing
    return d :: (← chainSegments segments)
  | .incoming id :: segments => do
    let d ← o.directed id .incoming
    return d :: (← chainSegments segments)
  | .individual _ :: segments => chainSegments segments

/-- The properties of what a class is declared to be equivalent to. -/
def equivalentSegments (c : Class κ) : Except IndexError (List (DirectedProperty κ)) := do
  let segments ← c.equivalents.mapM fun
    | .sameAs id => if (o.class? id).isSome then .ok [] else .error (.undefinedClass id)
    | .chain segments => o.chainSegments segments
  return segments.flatten

end Ontology

structure PatternIndex (κ : KnowledgeBase) where
  ontology : Ontology κ
  tags : Tagset
  named : Matcher (PropertyRef κ)
  inverse : Matcher (PropertyUsage κ)
  value : Matcher (PropertyUsage κ)
  adjective : Matcher (PropertyUsage κ)
  attributes : Matcher (Attribute κ)
  comparative : Matcher (ComparativeUsage κ)
  classes : Matcher (ClassRef κ)
  relations : Matcher (DirectedProperty κ)
  /-- The segments that each class is equivalent to, by its name. -/
  segments : List (String × List (DirectedProperty κ))

namespace PatternIndex

def compile {ρ : Type} (mode : MatchMode) (entries : List (Pattern × ρ)) :
    Except IndexError (Matcher ρ) :=
  (Matcher.compile mode entries).mapError .pattern

/-- Makes the index of an ontology. The first fault is reported, in the order of the fields. -/
def ofOntology (o : Ontology κ) (tags : Tagset) : Except IndexError (PatternIndex κ) := do
  let named ← compile .full (o.propertyEntries namedPhrase?)
  let inverse ← compile .full (o.propertyEntries inversePhrase?)
  let value ← compile .full (o.propertyEntries valuePhrase?)
  let adjective ← compile .full (o.propertyEntries (adjectivePhrase? tags))
  let attributes ← compile .leading (o.propertyEntries (attributePhrase? tags))
  let comparative ← compile .full (o.propertyEntries (comparativePhrase? tags))
  let classes ← compile .full o.classEntries
  -- names that lack their element are noticed before their patterns are compiled
  let relations ← compile .full (← o.relationEntries)
  let segments ← o.classes.toList.mapM fun c => do return (c.id, ← o.equivalentSegments c)
  return { ontology := o, tags, named, inverse, value, adjective, attributes, comparative, classes,
           relations, segments }

variable (index : PatternIndex κ) (name : List Token)

/-! ### Lookup -/

def namedProperties : List (PropertyRef κ) := index.named.results name

def inverseProperties : List (PropertyUsage κ) := index.inverse.results name

def valueProperties : List (PropertyUsage κ) := index.value.results name

/-- Adjectives after the copula, with what follows them. -/
def adjectiveProperties : List (PropertyUsage κ) := index.adjective.results name

/-- Adjectives at the start of a phrase, with the number of tokens they take. -/
def leadingAttributes : List (TokenMatch (Attribute κ)) := index.attributes.hits name

def comparativeProperties : List (ComparativeUsage κ) := index.comparative.results name

/-- The classes of a name, which may start with a determiner. -/
def namedClasses : List (ClassRef κ) := index.classes.results (index.tags.stripDeterminer name)

def relationProperties : List (DirectedProperty κ) :=
  index.relations.results (index.tags.stripDeterminer name)

def segmentsOf (c : ClassRef κ) : List (DirectedProperty κ) :=
  (index.segments.lookup c.id).getD []

end PatternIndex

end PhraseGraph
