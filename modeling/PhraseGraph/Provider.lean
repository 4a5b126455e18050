import PhraseGraph.Fragment.Supply
import PhraseGraph.Index
import PhraseGraph.Numeral.Literal
import PhraseGraph.Settings

/-!
# PhraseGraph.Provider

Fragments for the phrases of a question.

Whoever asks decides what kind of phrase it is; the provider decides what the phrase means. If
it means several things, then the fragment is a disjunction over all of them. Variables come out
of a supply, and what has been given out stays given out.
-/

namespace PhraseGraph

variable {κ : KnowledgeBase}

inductive ProviderError where
  | notAvailable
  | invalidNumber (text : String)
  deriving DecidableEq

def ProviderError.message : ProviderError → String
  | .notAvailable => "not available"
  | .invalidNumber text => "invalid number: " ++ text

/-- The making of something that takes variables out of a supply and may fail. -/
abbrev Making (α : Type) := ExceptT ProviderError (StateM Supply) α

namespace Making

def fail {α : Type} (e : ProviderError) : Making α := throw e

def available {α : Type} : Option α → Making α
  | some a => pure a
  | none => fail .notAvailable

def fresh : Making (Node κ) := do
  let (node, supply) := (← get).fresh
  set supply
  return node

def disjunction (es : List (Edge κ)) : Making (Edge κ) := available (Edge.anyOf es)

/-- A node itself, or a fresh one that is compared with it. -/
def compared (node : Node κ) : Option Comparison → Making (Node κ)
  | some comparison => do return (← fresh).filtered comparison node
  | none => pure node

end Making

open Making

inductive Subject where
  /-- Something that has a name, "Obama" in "Obama's children". -/
  | named (name : List Token)
  | person
  | thing

structure Context where
  subject : Subject
  /-- The tokens that trail the phrase, such as "in" or "than". -/
  filter : List Token

def Context.namedSubject? (c : Context) : Option (List Token) :=
  match c.subject with
  | .named name => some name
  | _ => none

/-- Answers requests for fragments by the phrases of an ontology. -/
structure Provider (κ : KnowledgeBase) where
  index : PatternIndex κ

/-- The edge of a phrase that names classes, and the classes. -/
structure ClassEdge (κ : KnowledgeBase) where
  edge : Edge κ
  classes : List (ClassRef κ)

namespace Provider

def ofOntology (o : Ontology κ) (settings : Settings) : Except IndexError (Provider κ) :=
  (PatternIndex.ofOntology o settings.tags).map fun index => ⟨index⟩

variable (provider : Provider κ)

def instanceProperty : Making (PropertyRef κ) :=
  available (provider.index.ontology.instanceProperty?.map Property.ref)

/-- The classes that a phrase names, with the adjectives in front of them. Without adjectives the
phrase has to name a class; with adjectives what follows any of them does. -/
def classPhrase (name : List Token) :
    List (TokenMatch (Attribute κ)) × List (ClassRef κ) :=
  let name := provider.index.tags.stripDeterminer name
  let attributes := provider.index.leadingAttributes name
  let classes :=
    if attributes.isEmpty then provider.index.namedClasses name
    -- each adjective leaves a remainder of its own, and several may name one class
    else (attributes.flatMap fun found =>
      provider.index.namedClasses (name.drop found.length)).eraseDups
  (attributes, classes)

/-- The edge of a phrase that names classes, none if it names no class. -/
def classEdge (name : List Token) : Making (Option (ClassEdge κ)) := do
  let (attributes, classes) := provider.classPhrase name
  if classes.isEmpty then return none
  let instanceProperty ← provider.instanceProperty
  let isA ← disjunction (classes.map (Edge.isA instanceProperty))
  let adjectives ← attributes.mapM fun found => do
    let node ← fresh
    -- a superlative orders the values of its property
    let node := match found.result.order with
      | some order => node.ordered order
      | none => node
    return Edge.outgoing found.result.property node
  let edge := match Edge.anyOf adjectives with
    | some adjectives => isA.and adjectives
    | none => isA
  return some { edge, classes }

/-! ### Requests -/

def personEdge : Making (Edge κ) := do
  let person ← available provider.index.ontology.personClass?
  return Edge.isA (← provider.instanceProperty) person.ref

def namedPropertyEdge (name : List Token) : Making (Edge κ) := do
  disjunction (← (provider.index.namedProperties name).mapM fun property => do
    return Edge.outgoing property (← fresh))

def inversePropertyEdge (name : List Token) (node : Node κ) (context : Context) :
    Making (Edge κ) := do
  disjunction (← (provider.index.inverseProperties (name ++ context.filter)).mapM fun usage => do
    return Edge.incoming (← compared node usage.comparison) usage.property)

/-- The owner has a property, told by an adjective, that leads to the node. -/
def adjectivePropertyEdge (name : List Token) (node : Node κ) (context : Context) :
    Making (Edge κ) := do
  disjunction (← (provider.index.adjectiveProperties (name ++ context.filter)).mapM fun usage => do
    return Edge.outgoing usage.property (← compared node usage.comparison))

/-- The owner has a property that compares with the node. -/
def comparativePropertyEdge (name : List Token) (node : Node κ) (context : Context) :
    Making (Edge κ) := do
  disjunction (← (provider.index.comparativeProperties (name ++ context.filter)).mapM
    fun usage => do
      -- the value of the owner, and what it is compared with
      let filtered ← fresh
      -- a quantity is compared directly, anything else by its own value of the property
      let reference ←
        if node.isQuantity then pure node
        else do pure ((← fresh).incoming node usage.property)
      return Edge.outgoing usage.property (filtered.filtered usage.comparison reference))

/-- The owner has a property whose value is the node. If the phrase names no such property, but
the subject has a name, then the relations of the subject are taken. -/
def valuePropertyEdge (name : List Token) (node : Node κ) (context : Context) :
    Making (Edge κ) := do
  let usages := provider.index.valueProperties (name ++ context.filter)
  -- only if the phrase names no property itself
  if usages.isEmpty then
    let subject ← available context.namedSubject?
    let relations := provider.index.relationProperties (subject ++ context.filter)
    disjunction (relations.map fun relation => relation.edge node)
  else
    disjunction (← usages.mapM fun usage => do
      return Edge.outgoing usage.property (← compared node usage.comparison))

/-- The owner is an instance of a class that the phrase names, and is related to the node as such
instances are. -/
def relationshipEdge (name : List Token) (node : Node κ) : Making (Edge κ) := do
  -- the variables of the adjectives are given out even if nothing relates the two
  let classEdge ← available (← provider.classEdge name)
  let relations := (provider.index.relationProperties name ++
    classEdge.classes.flatMap provider.index.segmentsOf).eraseDups
  let related ← disjunction (relations.map fun relation => relation.edge node)
  return classEdge.edge.and related

/-- A fresh node for a phrase: an instance of the class it names, or else something that is
labelled by it. -/
def valueNode (name : List Token) : Making (Node κ) := do
  match ← provider.classEdge name with
  | some classEdge => return (← fresh).and classEdge.edge
  | none =>
    let labelProperty ← available provider.index.ontology.labelProperty?
    let label := String.intercalate " " (name.map Token.word)
    return (← fresh).and (.hasLabel labelProperty.ref label)

def numberNode (number unit : List Token) : Making (Node κ) := do
  let text := String.intercalate " " (number.map Token.headword)
  match Binary64.read? text with
  | none => fail (.invalidNumber text)
  | some value =>
    return .quantity value
      (if unit.isEmpty then none
        else some (String.intercalate " " (unit.map Token.headword)))

/-- Whether coordinated filters are alternatives: there are some, all of them prepositions. -/
def isDisjunction (filter : List Token) : Bool :=
  !filter.isEmpty && filter.all provider.index.tags.isPreposition

end Provider

end PhraseGraph
