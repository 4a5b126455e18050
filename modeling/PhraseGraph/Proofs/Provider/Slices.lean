import PhraseGraph.Proofs.Index.Adjectives
import PhraseGraph.Proofs.Provider.PropertyEdges

/-!
# PhraseGraph.Proofs.Provider.Slices

Requests that break off where a phrase is too short.

The adjectives in front of a phrase are left out by the number of tokens that they take. Leaving out
more tokens than there are leaves nothing; but if what is left has to be a slice of the phrase, then
there is none behind the end of it, and no answer either. Here the requests are told once more with
slices, which are taken from phrases for classes only.

## Main statements

`Provider.checkedMake_eq`: no request breaks off, and each is answered as it is without slices.
`Provider.attributes_single`: an adjective in front of a phrase is its first token, which may also
follow the copula.
-/

namespace PhraseGraph

variable {κ : KnowledgeBase} {α β : Type}

/-- A making that may break off. -/
abbrev Checked (α : Type) := OptionT (Making : Type → Type) α

namespace Checked

/-- A making that does not break off. -/
def ofMaking (m : Making α) : Checked α := OptionT.lift m

theorem ofMaking_bind (m : Making α) (f : α → Making β) :
    (ofMaking m >>= fun a => ofMaking (f a)) = ofMaking (m >>= f) := by
  refine OptionT.ext ?_
  simp [ofMaking]

/-- The phrase from a place on, which must not lie behind its end. -/
def slice (phrase : List Token) (n : Nat) : Checked (List Token) :=
  if n ≤ phrase.length then pure (phrase.drop n) else failure

theorem mapM_slice {phrase : List Token} {found : List (TokenMatch (Attribute κ))}
    (within : ∀ a ∈ found, a.length ≤ phrase.length) :
    (found.mapM fun a => slice phrase a.length) = pure (found.map fun a => phrase.drop a.length) := by
  induction found with
  | nil => rfl
  | cons a found ih =>
    obtain ⟨first, later⟩ := List.forall_mem_cons.mp within
    rw [List.mapM_cons, ih later, slice, if_pos first]
    rfl

end Checked

namespace Provider

open Making Checked

section Checks

variable (provider : Provider κ)

/-- The classes that a phrase names, with the adjectives in front of them. -/
def checkedClassPhrase (name : List Token) :
    Checked (List (TokenMatch (Attribute κ)) × List (ClassRef κ)) := do
  let name := provider.index.tags.stripDeterminer name
  let attributes := provider.index.leadingAttributes name
  if attributes.isEmpty then return (attributes, provider.index.namedClasses name)
  let remainders ← attributes.mapM fun found => slice name found.length
  return (attributes, (remainders.flatMap provider.index.namedClasses).eraseDups)

def checkedClassEdge (name : List Token) : Checked (Option (ClassEdge κ)) := do
  let (attributes, classes) ← provider.checkedClassPhrase name
  ofMaking do
    if classes.isEmpty then return none
    let instanceProperty ← provider.instanceProperty
    let isA ← disjunction (classes.map (Edge.isA instanceProperty))
    let adjectives ← attributes.mapM fun found => do
      let node ← fresh
      let node := match found.result.order with
        | some order => node.ordered order
        | none => node
      return Edge.outgoing found.result.property node
    let edge := match Edge.anyOf adjectives with
      | some adjectives => isA.and adjectives
      | none => isA
    return some { edge, classes }

def checkedRelationshipEdge (name : List Token) (node : Node κ) : Checked (Edge κ) := do
  let classEdge ← provider.checkedClassEdge name
  ofMaking do
    let classEdge ← available classEdge
    let relations := (provider.index.relationProperties name ++
      classEdge.classes.flatMap provider.index.segmentsOf).eraseDups
    let related ← disjunction (relations.map fun relation => relation.edge node)
    return classEdge.edge.and related

def checkedValueNode (name : List Token) : Checked (Node κ) := do
  let classEdge ← provider.checkedClassEdge name
  ofMaking do
    match classEdge with
    | some classEdge => return (← fresh).and classEdge.edge
    | none =>
      let labelProperty ← available provider.index.ontology.labelProperty?
      let label := String.intercalate " " (name.map Token.word)
      return (← fresh).and (.hasLabel labelProperty.ref label)

/-- The answer to a request, with every slice checked that is taken for it. -/
def checkedMake : Request κ → Checked (Fragment κ)
  | .relationshipEdge name node => do
    let edge ← provider.checkedRelationshipEdge name node
    ofMaking (return .edge edge)
  | .valueNode name => do
    let node ← provider.checkedValueNode name
    ofMaking (return .node node)
  | request => ofMaking (provider.make request)

end Checks

variable {o : Ontology κ} {settings : Settings} {provider : Provider κ}

section Fields

variable (fields : PatternIndex.CompiledFrom o settings.tags provider.index)

include fields

theorem checkedClassPhrase_eq (name : List Token) :
    provider.checkedClassPhrase name = pure (provider.classPhrase name) := by
  simp only [checkedClassPhrase, classPhrase]
  generalize provider.index.tags.stripDeterminer name = phrase
  -- an adjective is a token of the phrase
  have within : ∀ found ∈ provider.index.leadingAttributes phrase,
      found.length ≤ phrase.length := fun found member => by
    obtain ⟨one, t, rest, rfl, -⟩ := (PatternIndex.mem_leadingAttributes_iff fields).mp member
    rw [one]
    exact Nat.le_add_left 1 rest.length
  rw [mapM_slice within]
  cases (provider.index.leadingAttributes phrase).isEmpty with
  | true => rfl
  | false => simp [List.flatMap_map]

theorem checkedClassEdge_eq (name : List Token) :
    provider.checkedClassEdge name = ofMaking (provider.classEdge name) := by
  rw [checkedClassEdge, checkedClassPhrase_eq fields, pure_bind]
  rfl

/-- No slice is missing for any request. -/
theorem checkedMake_eq (request : Request κ) :
    provider.checkedMake request = ofMaking (provider.make request) := by
  cases request with
  | relationshipEdge name node =>
    rw [checkedMake, checkedRelationshipEdge, checkedClassEdge_eq fields, ofMaking_bind,
      ofMaking_bind]
    rfl
  | valueNode name =>
    rw [checkedMake, checkedValueNode, checkedClassEdge_eq fields, ofMaking_bind, ofMaking_bind]
    rfl
  | _ => rfl

end Fields

/-- An adjective in front of a phrase is one token of it. So no request for any phrase breaks off,
and what may follow the copula is found in front of the phrase without the copula. -/
theorem attributes_single (built : ofOntology o settings = .ok provider) (phrase : List Token) :
    (∀ found ∈ provider.index.leadingAttributes phrase, found.length = 1 ∧ phrase ≠ []) ∧
    (∀ request, (provider.checkedMake request).run = some <$> provider.make request) ∧
    ∀ usage ∈ provider.index.adjectiveProperties phrase,
      ⟨⟨usage.property, none⟩, 1⟩ ∈ provider.index.leadingAttributes (phrase.drop 1) := by
  have fields := compiledFrom_of_ofOntology built
  refine ⟨fun found member => ?_, fun request => ?_,
    fun usage => PatternIndex.mem_leadingAttributes_of_adjective fields⟩
  · obtain ⟨one, t, rest, rfl, -⟩ := (PatternIndex.mem_leadingAttributes_iff fields).mp member
    exact ⟨one, List.cons_ne_nil t rest⟩
  · rw [checkedMake_eq fields]
    exact bind_pure_comp some _

/-- Nothing is left behind the adjective in the phrase "tall", but a slice still is. -/
theorem attributes_single_tall :
    ∃ provider, ofOntology Sample.ontology {} = .ok provider ∧
      ⟨⟨⟨"hasHeight", some 2048⟩, none⟩, 1⟩ ∈
        provider.index.leadingAttributes [⟨"tall", "JJ", "tall"⟩] ∧
      (provider.checkedMake (.valueNode [⟨"tall", "JJ", "tall"⟩])).run =
        some <$> provider.make (.valueNode [⟨"tall", "JJ", "tall"⟩]) := by
  have computed : (ofOntology Sample.ontology {}).toOption.map (fun provider =>
      provider.index.adjectiveProperties [⟨"is", "VBZ", "be"⟩, ⟨"tall", "JJ", "tall"⟩]) =
      some [⟨⟨"hasHeight", some 2048⟩, none⟩] := by decide +kernel
  obtain ⟨provider, built, found⟩ := map_toOption_eq_some.mp computed
  obtain ⟨-, answers, attributes⟩ :=
    attributes_single built [⟨"is", "VBZ", "be"⟩, ⟨"tall", "JJ", "tall"⟩]
  rw [found] at attributes
  exact ⟨provider, built, attributes _ List.mem_cons_self, answers _⟩

end Provider

end PhraseGraph
