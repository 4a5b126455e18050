import PhraseGraph.Ontology.Sample
import PhraseGraph.Proofs.Provider.Requests

/-!
# PhraseGraph.Proofs.Provider.Sessions

Sessions, in which answers are used again.

Whoever asks puts the fragments that were answered together, and asks about the nodes that come of
it. A session is a list of such steps on one supply. A step tells the fragments that it uses by the
places of the steps that gave them. If one of these gave nothing, then neither does the step; from
a list of edges only those are taken that are there.

## Main statements

`Provider.follows_perform`: every step of a session has a plan.
`Provider.session_cons`: a session is its first step, and a session that has one more answer to use.
-/

namespace PhraseGraph

variable {κ : KnowledgeBase}

/-- What a step of a session gave, and the variables that it left. -/
structure Answer (κ : KnowledgeBase) where
  result : Except ProviderError (Fragment κ)
  left : Supply

namespace Fragment

def node? : Fragment κ → Option (Node κ)
  | .node n => some n
  | .edge _ => none

def edge? : Fragment κ → Option (Edge κ)
  | .node _ => none
  | .edge e => some e

end Fragment

namespace Answer

def fragmentAt (earlier : List (Answer κ)) (place : Nat) : Option (Fragment κ) :=
  earlier[place]?.bind (·.result.toOption)

def nodeAt (earlier : List (Answer κ)) (place : Nat) : Option (Node κ) :=
  (fragmentAt earlier place).bind Fragment.node?

def edgeAt (earlier : List (Answer κ)) (place : Nat) : Option (Edge κ) :=
  (fragmentAt earlier place).bind Fragment.edge?

end Answer

open Answer

/-- How a fragment is put together from those that steps before have given. -/
inductive Recipe (κ : KnowledgeBase) where
  /-- A fragment that is brought along. -/
  | known (f : Fragment κ)
  | outgoing (property : PropertyRef κ) (node : Nat)
  | incoming (node : Nat) (property : PropertyRef κ)
  | and (first second : Nat)
  | or (first second : Nat)
  | allOf (edges : List Nat)
  | anyOf (edges : List Nat)
  | attach (node edge : Nat)
  | filtered (node : Nat) (comparison : Comparison) (value : Nat)
  | ordered (node : Nat) (order : Order)

namespace Recipe

def build (earlier : List (Answer κ)) : Recipe κ → Option (Fragment κ)
  | .known f => some f
  | .outgoing property node => do return .edge (.outgoing property (← nodeAt earlier node))
  | .incoming node property => do return .edge (.incoming (← nodeAt earlier node) property)
  | .and first second => do return .edge ((← edgeAt earlier first).and (← edgeAt earlier second))
  | .or first second => do return .edge ((← edgeAt earlier first).or (← edgeAt earlier second))
  | .allOf edges => do return .edge (← Edge.allOf (edges.filterMap (edgeAt earlier)))
  | .anyOf edges => do return .edge (← Edge.anyOf (edges.filterMap (edgeAt earlier)))
  | .attach node edge => do return .node ((← nodeAt earlier node).and (← edgeAt earlier edge))
  | .filtered node comparison value => do
    return .node ((← nodeAt earlier node).filtered comparison (← nodeAt earlier value))
  | .ordered node order => do return .node ((← nodeAt earlier node).ordered order)

end Recipe

/-- The same request, about another node. -/
def Request.about (node : Node κ) : Request κ → Request κ
  | .inversePropertyEdge name _ context => .inversePropertyEdge name node context
  | .adjectivePropertyEdge name _ context => .adjectivePropertyEdge name node context
  | .comparativePropertyEdge name _ context => .comparativePropertyEdge name node context
  | .valuePropertyEdge name _ context => .valuePropertyEdge name node context
  | .relationshipEdge name _ => .relationshipEdge name node
  | .personEdge => .personEdge
  | .namedPropertyEdge name => .namedPropertyEdge name
  | .valueNode name => .valueNode name
  | .numberNode number unit => .numberNode number unit

inductive Step (κ : KnowledgeBase) where
  | fresh
  | build (recipe : Recipe κ)
  | ask (request : Request κ)
  /-- The request is about the node that an earlier step gave. -/
  | askAbout (request : Request κ) (node : Nat)

/-- The fragments that a step brings along. -/
def Step.brought : Step κ → List (Fragment κ)
  | .build (.known f) => [f]
  | .ask request => request.node?.toList.map .node
  | _ => []

namespace Provider

def perform (provider : Provider κ) (earlier : List (Answer κ)) : Step κ → Making (Fragment κ)
  | .fresh => do return .node (← Making.fresh)
  | .build recipe => Making.available (recipe.build earlier)
  | .ask request => provider.make request
  | .askAbout request node => do
    provider.make (request.about (← Making.available (nodeAt earlier node)))

/-- Steps one after another, each with the variables that those before it have left. -/
def session (provider : Provider κ) :
    List (Answer κ) → List (Step κ) → Supply → List (Answer κ)
  | _, [], _ => []
  | earlier, step :: steps, s =>
    let (result, left) := Making.outcome (provider.perform earlier step) s
    ⟨result, left⟩ :: provider.session (earlier ++ [⟨result, left⟩]) steps left

variable (provider : Provider κ)

/-! ### Plans of steps -/

def stepPlan (earlier : List (Answer κ)) : Step κ → Plan (Fragment κ)
  | .fresh => .makes (Allotment.fresh.map .node)
  | .build recipe => .ofOption (recipe.build earlier)
  | .ask request => provider.plan request
  | .askAbout request node =>
    match nodeAt earlier node with
    | some n => provider.plan (request.about n)
    | none => .fails 0 .notAvailable

theorem follows_perform (earlier : List (Answer κ)) (step : Step κ) :
    Follows (provider.perform earlier step) (provider.stepPlan earlier step) := by
  cases step with
  | fresh => exact Follows.fresh.map _
  | build recipe => exact Follows.available _
  | ask request => exact provider.follows_make request
  | askAbout request node =>
    rw [perform, stepPlan]
    cases nodeAt earlier node with
    | none => exact (Follows.available none).stop
    | some n => exact (Follows.available (some n)).bind_const (provider.follows_make _)

/-- The answer of a step as it is planned. -/
def answer (earlier : List (Answer κ)) (step : Step κ) (s : Supply) : Answer κ :=
  ⟨(provider.stepPlan earlier step).result s.next,
    ⟨s.next + (provider.stepPlan earlier step).count⟩⟩

theorem session_cons (earlier : List (Answer κ)) (step : Step κ) (steps : List (Step κ))
    (s : Supply) :
    provider.session earlier (step :: steps) s = provider.answer earlier step s ::
      provider.session (earlier ++ [provider.answer earlier step s]) steps
        (provider.answer earlier step s).left := by
  rw [session, provider.follows_perform earlier step s]
  rfl

end Provider

/-- The children of the oldest mother who was born in some place, which is the variable 0. -/
def Sample.children : List (Step .numbered) := [
  .build (.known (.node (.var 0))),
  .askAbout
    (.valuePropertyEdge [⟨"born", "VBN", "bear"⟩] (.var 0) ⟨.thing, [⟨"in", "IN", "in"⟩]⟩) 0,
  .ask (.valueNode [⟨"oldest", "JJS", "old"⟩, ⟨"mother", "NN", "mother"⟩]),
  .build (.attach 2 1),
  .askAbout (.relationshipEdge [⟨"children", "NNS", "child"⟩] (.var 0)) 3]

end PhraseGraph
