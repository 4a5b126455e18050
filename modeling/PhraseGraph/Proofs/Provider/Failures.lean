import PhraseGraph.Ontology.Sample
import PhraseGraph.Proofs.Outcomes
import PhraseGraph.Proofs.Provider.Requests

/-!
# PhraseGraph.Proofs.Provider.Failures

What failed requests leave behind.

A request that fails has not taken a variable, with one exception. The edge of a relationship takes
a variable for each adjective in front of the name of a class before it is known whether the
instances of the class are related to anything, and does not give them back if they are not.

## Main statements

`Provider.loses_plan`: what a plan loses if it fails.
`Provider.supply_of_failed`: the supply after a failed request.
-/

namespace PhraseGraph

variable {κ : KnowledgeBase} {α β : Type}

/-! ### Lost variables -/

/-- If the plan fails, then so many variables are lost. -/
def Plan.Loses (count : Nat) : Plan α → Prop
  | .makes _ => True
  | .fails lost _ => lost = count

namespace Plan

theorem Loses.map {count : Nat} {plan : Plan α} (loses : plan.Loses count) (f : α → β) :
    (plan.map f).Loses count := by
  cases plan with
  | makes a => trivial
  | fails lost e => exact loses

theorem loses_ofOption (o : Option α) : (ofOption o).Loses 0 := by
  cases o with
  | none => rfl
  | some a => trivial

/-- Without alternatives no variable has been taken for one. -/
theorem loses_disjunction (f : α → Allotment (Edge κ)) (as : List α) :
    (disjunction f as).Loses 0 := by
  cases as with
  | nil => rfl
  | cons a as => trivial

end Plan

namespace Provider

variable (provider : Provider κ)

/-- The variables that a request loses if it fails: one for each adjective if a relationship is
asked for, and the phrase names classes that have instances. -/
def lost : Request κ → Nat
  | .relationshipEdge name _ =>
    let (attributes, classes) := provider.classPhrase name
    if classes.isEmpty || provider.index.ontology.instanceProperty?.isNone then 0
    else attributes.length
  | _ => 0

theorem lost_relationshipEdge (name : List Token) (node : Node κ) :
    provider.lost (.relationshipEdge name node) =
      match provider.classReading name with
      | .ok (some a) => a.count
      | _ => 0 := by
  simp only [lost, classReading]
  cases (provider.classPhrase name).2.isEmpty with
  | true => rfl
  | false =>
    cases provider.index.ontology.instanceProperty? with
    | none => rfl
    | some property => exact (provider.count_classAllotment property.ref name).symm

theorem loses_relationshipPlan (name : List Token) (node : Node κ) :
    (provider.relationshipPlan name node).Loses (provider.lost (.relationshipEdge name node)) := by
  rw [relationshipPlan, lost_relationshipEdge]
  rcases provider.classReading name with e | _ | a
  · rfl
  · rfl
  · cases provider.related? name node with
    | none => rfl
    | some related => trivial

theorem loses_valuePropertyPlan (name : List Token) (node : Node κ) (context : Context) :
    (provider.valuePropertyPlan name node context).Loses 0 := by
  rw [valuePropertyPlan]
  split
  · exact Plan.loses_ofOption _
  · exact Plan.loses_disjunction _ _

theorem loses_valueNodePlan (name : List Token) : (provider.valueNodePlan name).Loses 0 := by
  rw [valueNodePlan]
  split
  · rfl
  · rw [labelPlan]
    split
    · trivial
    · rfl
  · trivial

theorem loses_numberPlan (number unit : List Token) :
    (numberPlan number unit : Plan (Node κ)).Loses 0 := by
  rw [numberPlan]
  split
  · rfl
  · trivial

theorem loses_plan (request : Request κ) :
    (provider.plan request).Loses (provider.lost request) := by
  cases request with
  | personEdge => exact (Plan.loses_ofOption _).map _
  | namedPropertyEdge name => exact (Plan.loses_disjunction _ _).map _
  | inversePropertyEdge name node context => exact (Plan.loses_disjunction _ _).map _
  | adjectivePropertyEdge name node context => exact (Plan.loses_disjunction _ _).map _
  | comparativePropertyEdge name node context => exact (Plan.loses_disjunction _ _).map _
  | valuePropertyEdge name node context =>
    exact (provider.loses_valuePropertyPlan name node context).map _
  | relationshipEdge name node => exact (provider.loses_relationshipPlan name node).map _
  | valueNode name => exact (provider.loses_valueNodePlan name).map _
  | numberNode number unit => exact (loses_numberPlan number unit).map _

/-- A failed request leaves the supply as it was, up to the variables that it loses. If it loses
none, then every request after it is answered as if it had not been made. -/
theorem supply_of_failed {request : Request κ} {s s' : Supply} {e : ProviderError}
    (failed : Making.outcome (provider.make request) s = (.error e, s')) :
    s'.next = s.next + provider.lost request ∧
      (provider.lost request = 0 → ∀ other, Making.outcome (provider.make other) s' =
        Making.outcome (provider.make other) s) := by
  have loses := provider.loses_plan request
  rw [provider.follows_make request] at failed
  cases planned : provider.plan request with
  | makes a =>
    rw [planned] at failed
    cases failed
  | fails lost e =>
    rw [planned] at loses failed
    obtain rfl : lost = provider.lost request := loses
    cases failed
    refine ⟨rfl, fun none_lost other => ?_⟩
    rw [none_lost]
    rfl

/-- A relationship to men, to whom nothing is related. -/
def oldestMan : Request .numbered :=
  .relationshipEdge [⟨"oldest", "JJS", "old"⟩, ⟨"man", "NN", "man"⟩] (.var 0)

theorem outcome_oldestMan :
    ∃ provider, Provider.ofOntology Sample.ontology {} = .ok provider ∧
      Making.outcome (provider.make oldestMan) ⟨5⟩ = (.error .notAvailable, ⟨6⟩) := by
  have computed : (Provider.ofOntology Sample.ontology {}).toOption.map (fun provider =>
      Prod.map (Except.map fun _ => ()) id (Making.outcome (provider.make oldestMan) ⟨5⟩)) =
      some (.error .notAvailable, ⟨6⟩) := by decide +kernel
  obtain ⟨provider, built, answered⟩ := map_toOption_eq_some.mp computed
  refine ⟨provider, built, ?_⟩
  generalize Making.outcome (provider.make oldestMan) ⟨5⟩ = outcome at answered ⊢
  obtain ⟨result, s⟩ := outcome
  cases result with
  | ok f => cases answered
  | error e =>
    cases answered
    rfl

/-- One variable is lost for the oldest man, and none for a number without digits. -/
theorem supply_of_failed_oldestMan :
    ∃ provider, Provider.ofOntology Sample.ontology {} = .ok provider ∧
      (∃ s', Making.outcome (provider.make oldestMan) ⟨5⟩ = (.error .notAvailable, s') ∧
        s'.next = 5 + provider.lost oldestMan) ∧
      ∃ s', Making.outcome (provider.make (.numberNode [] [])) ⟨5⟩ =
          (.error (.invalidNumber ""), s') ∧
        ∀ other, Making.outcome (provider.make other) s' =
          Making.outcome (provider.make other) ⟨5⟩ := by
  obtain ⟨provider, built, failed⟩ := outcome_oldestMan
  have wordless : Making.outcome (provider.make (.numberNode [] [])) ⟨5⟩ =
      (.error (.invalidNumber ""), ⟨5⟩) := rfl
  exact ⟨provider, built, ⟨⟨6⟩, failed, (supply_of_failed provider failed).1⟩,
    ⟨⟨5⟩, wordless, (supply_of_failed provider wordless).2 rfl⟩⟩

/-- A failed request may change the supply, so that a request after it gets other variables. -/
theorem supply_changed_oldestMan :
    ∃ provider, Provider.ofOntology Sample.ontology {} = .ok provider ∧
      ∃ s', Making.outcome (provider.make oldestMan) ⟨5⟩ = (.error .notAvailable, s') ∧
        s' ≠ ⟨5⟩ := by
  obtain ⟨provider, built, failed⟩ := outcome_oldestMan
  exact ⟨provider, built, ⟨6⟩, failed, by decide⟩

end Provider

end PhraseGraph
