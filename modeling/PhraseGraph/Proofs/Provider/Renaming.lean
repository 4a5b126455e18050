import PhraseGraph.Ontology.Sample
import PhraseGraph.Proofs.Fragment.Renaming
import PhraseGraph.Proofs.Outcomes
import PhraseGraph.Proofs.Provider.Sessions
import PhraseGraph.Proofs.Provider.Variables

/-!
# PhraseGraph.Proofs.Provider.Renaming

Answers from a supply that starts later.

The variables that have not been given out are all alike. If the supply starts later, then they are
others, and everything else remains: a request fails as before, or has the same answer with the
variables moved that were taken for it.

## Main statements

`Provider.shifted_plan`: plans only differ in the variables they get.
`Provider.outcome_shifted`: requests and sessions are answered alike from any supply.
-/

namespace PhraseGraph

variable {κ : KnowledgeBase} {α α' β β' γ γ' : Type} {σ : Shift}

theorem Edge.alternatives_replace (r : Replacement κ) (es : List (Edge κ)) :
    alternatives (es.map (replace r)) = (alternatives es).replace r := by
  match es with
  | [] => exact (replace_disjunction r []).symm
  | [e] => rfl
  | e :: f :: es => exact (replace_disjunction r (e :: f :: es)).symm

/-! ### Rules -/

/-- From a supply that starts later, as many variables are taken, and the same is made of them. -/
structure Allotment.Shifted (σ : Shift) (rename : α → α') (a : Allotment α) (b : Allotment α') :
    Prop where
  count_eq : b.count = a.count
  made_eq : ∀ n, σ.start ≤ n → b.made (n + σ.distance) = rename (a.made n)

inductive Plan.Shifted (σ : Shift) (rename : α → α') : Plan α → Plan α' → Prop where
  | makes {a : Allotment α} {b : Allotment α'} (shifted : a.Shifted σ rename b) :
    Shifted σ rename (.makes a) (.makes b)
  | fails (lost : Nat) (e : ProviderError) : Shifted σ rename (.fails lost e) (.fails lost e)

namespace Allotment

variable {r : α → α'} {r' : β → β'} {r'' : γ → γ'} {a : Allotment α} {a' : Allotment α'}
  {b : Allotment β} {b' : Allotment β'}

theorem shifted_const (x : α) : (const x).Shifted σ r (const (r x)) :=
  ⟨rfl, fun _ _ => rfl⟩

/-- What is made without any variable is made in the same way if nothing in it is moved. -/
theorem shifted_fixed {r : α → α} {x : α} (same : r x = x) :
    (const x).Shifted σ r (const x) :=
  ⟨rfl, fun _ _ => same.symm⟩

theorem shifted_fresh : (fresh (κ := κ)).Shifted σ (Node.replace σ.renaming) fresh := by
  refine ⟨rfl, fun n le => ?_⟩
  change Node.var (n + σ.distance) = (Node.var n).replace σ.renaming
  rw [Node.rename_var, Shift.apply_of_le le]

theorem Shifted.map {f : α → β} {f' : α' → β'} (shifted : a.Shifted σ r a')
    (commutes : ∀ x, f' (r x) = r' (f x)) : (a.map f).Shifted σ r' (a'.map f') where
  count_eq := shifted.count_eq
  made_eq n le := by rw [made_map, made_map, shifted.made_eq n le, commutes]

theorem Shifted.map₂ {f : α → β → γ} {f' : α' → β' → γ'} (first : a.Shifted σ r a')
    (second : b.Shifted σ r' b') (commutes : ∀ x y, f' (r x) (r' y) = r'' (f x y)) :
    (a.map₂ f b).Shifted σ r'' (a'.map₂ f' b') where
  count_eq := by rw [count_map₂, count_map₂, first.count_eq, second.count_eq]
  made_eq n le := by
    -- the second part starts behind what the first has taken, from either supply
    have rest := second.made_eq (n + a.count) (Nat.le_add_right_of_le le)
    rw [Nat.add_right_comm] at rest
    rw [made_map₂, made_map₂, first.made_eq n le, first.count_eq, rest, commutes]

theorem shifted_traverse {f : α → Allotment β} {f' : α → Allotment β'} {as : List α}
    (each : ∀ a ∈ as, (f a).Shifted σ r' (f' a)) :
    (traverse f as).Shifted σ (List.map r') (traverse f' as) := by
  induction as with
  | nil => exact shifted_const []
  | cons a as ih =>
    obtain ⟨first, later⟩ := List.forall_mem_cons.mp each
    exact first.map₂ (ih later) fun _ _ => rfl

theorem shifted_compared (node : Node κ) (comparison : Option Comparison) :
    (compared node comparison).Shifted σ (Node.replace σ.renaming)
      (compared (node.replace σ.renaming) comparison) := by
  cases comparison with
  | none => exact shifted_const node
  | some comparison =>
    rw [compared, compared]
    exact shifted_fresh.map fun v => (Node.replace_filtered _ v comparison node).symm

end Allotment

namespace Plan

variable {r : α → α'} {r' : β → β'}

theorem Shifted.count_eq {plan : Plan α} {plan' : Plan α'} (shifted : plan.Shifted σ r plan') :
    plan'.count = plan.count := by
  cases shifted with
  | makes shifted => exact shifted.count_eq
  | fails lost e => rfl

theorem Shifted.result_eq {plan : Plan α} {plan' : Plan α'} (shifted : plan.Shifted σ r plan')
    {n : Nat} (le : σ.start ≤ n) : plan'.result (n + σ.distance) = (plan.result n).map r := by
  cases shifted with
  | makes shifted => exact congrArg Except.ok (shifted.made_eq n le)
  | fails lost e => rfl

theorem Shifted.map {plan : Plan α} {plan' : Plan α'} {f : α → β} {f' : α' → β'}
    (shifted : plan.Shifted σ r plan') (commutes : ∀ x, f' (r x) = r' (f x)) :
    (plan.map f).Shifted σ r' (plan'.map f') := by
  cases shifted with
  | makes shifted => exact .makes (shifted.map commutes)
  | fails lost e => exact .fails lost e

theorem shifted_ofOption (o : Option α) : (ofOption o).Shifted σ r (ofOption (o.map r)) := by
  cases o with
  | none => exact .fails 0 .notAvailable
  | some x => exact .makes (Allotment.shifted_const x)

theorem shifted_fixed {r : α → α} {o : Option α} (same : ∀ x ∈ o, r x = x) :
    (ofOption o).Shifted σ r (ofOption o) := by
  cases o with
  | none => exact .fails 0 .notAvailable
  | some x => exact .makes (Allotment.shifted_fixed (same x rfl))

theorem shifted_disjunction {f f' : α → Allotment (Edge κ)} {as : List α}
    (each : ∀ a ∈ as, (f a).Shifted σ (Edge.replace σ.renaming) (f' a)) :
    (disjunction f as).Shifted σ (Edge.replace σ.renaming) (disjunction f' as) := by
  cases as with
  | nil => exact .fails 0 .notAvailable
  | cons a as =>
    exact .makes ((Allotment.shifted_traverse each).map (Edge.alternatives_replace _))

end Plan

/-! ### Requests -/

theorem DirectedProperty.edge_rename (d : DirectedProperty κ) (node : Node κ) :
    d.edge (node.replace σ.renaming) = (d.edge node).replace σ.renaming := by
  obtain ⟨property, direction⟩ := d
  cases direction with
  | outgoing => exact (Edge.rename_outgoing property node).symm
  | incoming => exact (Edge.rename_incoming node property).symm

/-- Relations lead to the node wherever its variables have been moved. -/
theorem anyOf_relations_rename (ds : List (DirectedProperty κ)) (node : Node κ) :
    Edge.anyOf (ds.map fun d => d.edge (node.replace σ.renaming)) =
      (Edge.anyOf (ds.map fun d => d.edge node)).map (Edge.replace σ.renaming) := by
  rw [← Edge.replace_anyOf, List.map_map]
  simp only [DirectedProperty.edge_rename, Function.comp_def]

def Request.rename (σ : Shift) (request : Request κ) : Request κ :=
  match request.node? with
  | some node => request.about (node.replace σ.renaming)
  | none => request

theorem Request.rename_about (request : Request κ) (node : Node κ) :
    (request.about node).rename σ = request.about (node.replace σ.renaming) := by
  cases request <;> rfl

theorem Request.about_of_node? {request : Request κ} {node : Node κ}
    (found : request.node? = some node) : request.about node = request := by
  cases request <;> cases found <;> rfl

theorem Request.rename_eq_self {request : Request κ}
    (before : ∀ id ∈ request.given, id < σ.start) : request.rename σ = request := by
  rw [rename]
  rw [given] at before
  cases found : request.node? with
  | none => rfl
  | some node =>
    rw [found] at before
    have same : node.replace σ.renaming = node := Node.rename_eq_self before
    dsimp only
    rw [same, about_of_node? found]

def ClassEdge.rename (σ : Shift) (c : ClassEdge κ) : ClassEdge κ :=
  { c with edge := c.edge.replace σ.renaming }

namespace Provider

variable (provider : Provider κ)

theorem shifted_personPlan :
    provider.personPlan.Shifted σ (Edge.replace σ.renaming) provider.personPlan := by
  refine Plan.shifted_fixed fun e found => ?_
  obtain ⟨person, -, found⟩ := Option.bind_eq_some_iff.mp found
  obtain ⟨property, -, found⟩ := Option.bind_eq_some_iff.mp found
  cases found
  exact Edge.rename_of_vars_eq_nil (Edge.vars_isA property.ref person.ref)

theorem shifted_namedPropertyPlan (name : List Token) :
    (provider.namedPropertyPlan name).Shifted σ (Edge.replace σ.renaming)
      (provider.namedPropertyPlan name) :=
  Plan.shifted_disjunction fun property _ =>
    Allotment.shifted_fresh.map fun v => (Edge.rename_outgoing property v).symm

theorem shifted_inversePropertyPlan (name : List Token) (node : Node κ) (context : Context) :
    (provider.inversePropertyPlan name node context).Shifted σ (Edge.replace σ.renaming)
      (provider.inversePropertyPlan name (node.replace σ.renaming) context) :=
  Plan.shifted_disjunction fun usage _ =>
    (Allotment.shifted_compared node usage.comparison).map fun source =>
      (Edge.rename_incoming source usage.property).symm

theorem shifted_usagePlan (node : Node κ) (usages : List (PropertyUsage κ)) :
    (usagePlan node usages).Shifted σ (Edge.replace σ.renaming)
      (usagePlan (node.replace σ.renaming) usages) :=
  Plan.shifted_disjunction fun usage _ =>
    (Allotment.shifted_compared node usage.comparison).map fun target =>
      (Edge.rename_outgoing usage.property target).symm

theorem shifted_reference (node : Node κ) (property : PropertyRef κ) :
    (reference node property).Shifted σ (Node.replace σ.renaming)
      (reference (node.replace σ.renaming) property) := by
  rw [reference, reference, Node.isQuantity_rename]
  split
  · exact Allotment.shifted_const node
  · refine Allotment.shifted_fresh.map fun v => ?_
    rw [Node.incoming, Node.incoming, Node.replace_and, Edge.replace_incoming]
    rfl

theorem shifted_comparativePropertyPlan (name : List Token) (node : Node κ) (context : Context) :
    (provider.comparativePropertyPlan name node context).Shifted σ (Edge.replace σ.renaming)
      (provider.comparativePropertyPlan name (node.replace σ.renaming) context) := by
  refine Plan.shifted_disjunction fun usage _ => ?_
  refine Allotment.shifted_fresh.map₂ (shifted_reference node usage.property) ?_
  intro v reference
  rw [Edge.replace_outgoing, Node.replace_filtered]
  rfl

theorem shifted_valuePropertyPlan (name : List Token) (node : Node κ) (context : Context) :
    (provider.valuePropertyPlan name node context).Shifted σ (Edge.replace σ.renaming)
      (provider.valuePropertyPlan name (node.replace σ.renaming) context) := by
  rw [valuePropertyPlan, valuePropertyPlan]
  split
  · cases context.namedSubject? with
    | none => exact .fails 0 .notAvailable
    | some subject =>
      simp only [Option.bind_eq_bind, Option.bind_some]
      rw [anyOf_relations_rename]
      exact Plan.shifted_ofOption _
  · exact shifted_usagePlan node _

theorem shifted_attributeEdge (found : TokenMatch (Attribute κ)) :
    (attributeEdge found).Shifted σ (Edge.replace σ.renaming) (attributeEdge found) := by
  refine Allotment.shifted_fresh.map fun v => ?_
  rw [Edge.rename_outgoing]
  cases found.result.order with
  | none => rfl
  | some order => exact congrArg _ (Node.replace_ordered _ v order).symm

theorem shifted_classAllotment (instanceProperty : PropertyRef κ) (name : List Token) :
    (provider.classAllotment instanceProperty name).Shifted σ (ClassEdge.rename σ)
      (provider.classAllotment instanceProperty name) := by
  rw [classAllotment]
  obtain ⟨attributes, classes⟩ := provider.classPhrase name
  have isA : (Edge.alternatives (classes.map (Edge.isA instanceProperty))).replace σ.renaming =
      Edge.alternatives (classes.map (Edge.isA instanceProperty)) := by
    refine Edge.rename_of_vars_eq_nil ?_
    rw [Edge.vars_alternatives, List.flatMap_map]
    simp
  refine (Allotment.shifted_traverse fun found _ => shifted_attributeEdge found).map fun es => ?_
  rw [Edge.replace_anyOf]
  cases Edge.anyOf es with
  | none => exact congrArg (ClassEdge.mk · classes) isA.symm
  | some e =>
    refine congrArg (ClassEdge.mk · classes) ?_
    rw [Edge.replace_and, isA]
    rfl

theorem shifted_of_classReading {name : List Token} {a : Allotment (ClassEdge κ)}
    (read : provider.classReading name = .ok (some a)) : a.Shifted σ (ClassEdge.rename σ) a := by
  rw [classReading] at read
  split at read
  · cases read
  · split at read
    · cases read
      exact provider.shifted_classAllotment _ name
    · cases read

theorem related?_rename (name : List Token) (node : Node κ) :
    provider.related? name (node.replace σ.renaming) =
      (provider.related? name node).map (Edge.replace σ.renaming) :=
  anyOf_relations_rename _ node

theorem shifted_relationshipPlan (name : List Token) (node : Node κ) :
    (provider.relationshipPlan name node).Shifted σ (Edge.replace σ.renaming)
      (provider.relationshipPlan name (node.replace σ.renaming)) := by
  rw [relationshipPlan, relationshipPlan, related?_rename]
  rcases read : provider.classReading name with e | _ | a
  · exact .fails 0 e
  · exact .fails 0 .notAvailable
  · cases provider.related? name node with
    -- the variables of the class are lost, and they are as many
    | none => exact .fails a.count .notAvailable
    | some edge =>
      refine .makes ((provider.shifted_of_classReading read).map fun c => ?_)
      exact (Edge.replace_and _ c.edge edge).symm

theorem shifted_valueNodePlan (name : List Token) :
    (provider.valueNodePlan name).Shifted σ (Node.replace σ.renaming)
      (provider.valueNodePlan name) := by
  rw [valueNodePlan]
  rcases read : provider.classReading name with e | _ | a
  · exact .fails 0 e
  · dsimp only
    rw [labelPlan]
    cases provider.index.ontology.labelProperty? with
    | none => exact .fails 0 .notAvailable
    | some property =>
      refine .makes (Allotment.shifted_fresh.map fun v => ?_)
      rw [Node.replace_and, Edge.rename_of_vars_eq_nil (Edge.vars_hasLabel _ _)]
  · refine .makes ((provider.shifted_of_classReading read).map₂ Allotment.shifted_fresh ?_)
    intro c v
    exact (Node.replace_and _ v c.edge).symm

theorem shifted_numberPlan (number unit : List Token) :
    (numberPlan number unit : Plan (Node κ)).Shifted σ (Node.replace σ.renaming)
      (numberPlan number unit) := by
  rw [numberPlan]
  split
  · exact .fails 0 _
  · refine .makes (Allotment.shifted_fixed (Node.rename_eq_self ?_))
    simp

/-- The plan of a request is the same whatever variables its node has, but for these variables. -/
theorem shifted_plan (σ : Shift) (request : Request κ) :
    (provider.plan request).Shifted σ (Fragment.rename σ) (provider.plan (request.rename σ)) := by
  cases request with
  | personEdge => exact provider.shifted_personPlan.map fun _ => rfl
  | namedPropertyEdge name => exact (provider.shifted_namedPropertyPlan name).map fun _ => rfl
  | inversePropertyEdge name node context =>
    exact (provider.shifted_inversePropertyPlan name node context).map fun _ => rfl
  | adjectivePropertyEdge name node context =>
    exact (shifted_usagePlan node _).map fun _ => rfl
  | comparativePropertyEdge name node context =>
    exact (provider.shifted_comparativePropertyPlan name node context).map fun _ => rfl
  | valuePropertyEdge name node context =>
    exact (provider.shifted_valuePropertyPlan name node context).map fun _ => rfl
  | relationshipEdge name node =>
    exact (provider.shifted_relationshipPlan name node).map fun _ => rfl
  | valueNode name => exact (provider.shifted_valueNodePlan name).map fun _ => rfl
  | numberNode number unit => exact (shifted_numberPlan number unit).map fun _ => rfl

end Provider

/-! ### Sessions -/

namespace Answer

def rename (σ : Shift) (answer : Answer κ) : Answer κ :=
  ⟨answer.result.map (Fragment.rename σ), ⟨answer.left.next + σ.distance⟩⟩

variable (earlier : List (Answer κ)) (place : Nat)

theorem fragmentAt_rename : fragmentAt (earlier.map (rename σ)) place =
    (fragmentAt earlier place).map (Fragment.rename σ) := by
  rw [fragmentAt, fragmentAt, List.getElem?_map]
  rcases earlier[place]? with _ | ⟨e | f, left⟩ <;> rfl

theorem nodeAt_rename : nodeAt (earlier.map (rename σ)) place =
    (nodeAt earlier place).map (Node.replace σ.renaming) := by
  rw [nodeAt, nodeAt, fragmentAt_rename]
  rcases fragmentAt earlier place with _ | n | e <;> rfl

theorem edgeAt_rename : edgeAt (earlier.map (rename σ)) place =
    (edgeAt earlier place).map (Edge.replace σ.renaming) := by
  rw [edgeAt, edgeAt, fragmentAt_rename]
  rcases fragmentAt earlier place with _ | n | e <;> rfl

theorem edgesAt_rename (places : List Nat) : places.filterMap (edgeAt (earlier.map (rename σ))) =
    (places.filterMap (edgeAt earlier)).map (Edge.replace σ.renaming) := by
  rw [List.map_filterMap]
  exact List.filterMap_congr fun place _ => edgeAt_rename earlier place

end Answer

open Answer

/-- What is brought along has been there before the session: its variables are not moved. -/
def Step.IsGrounded (start : Nat) (step : Step κ) : Prop :=
  ∀ f ∈ step.brought, ∀ id ∈ f.vars, id < start

theorem Recipe.build_rename (earlier : List (Answer κ)) {recipe : Recipe κ}
    (grounded : (Step.build recipe).IsGrounded σ.start) :
    recipe.build (earlier.map (Answer.rename σ)) =
      (recipe.build earlier).map (Fragment.rename σ) := by
  cases recipe with
  | known f =>
    have same : f.rename σ = f := Fragment.rename_eq_self (grounded f List.mem_cons_self)
    exact congrArg some same.symm
  | outgoing property node =>
    rw [build, build, nodeAt_rename]
    cases nodeAt earlier node with
    | none => rfl
    | some n => exact congrArg (some ∘ Fragment.edge) (Edge.rename_outgoing property n).symm
  | incoming node property =>
    rw [build, build, nodeAt_rename]
    cases nodeAt earlier node with
    | none => rfl
    | some n => exact congrArg (some ∘ Fragment.edge) (Edge.rename_incoming n property).symm
  | and first second =>
    rw [build, build, edgeAt_rename, edgeAt_rename]
    rcases edgeAt earlier first with _ | e
    · rfl
    · rcases edgeAt earlier second with _ | e'
      · rfl
      · exact congrArg (some ∘ Fragment.edge) (Edge.replace_and _ e e').symm
  | or first second =>
    rw [build, build, edgeAt_rename, edgeAt_rename]
    rcases edgeAt earlier first with _ | e
    · rfl
    · rcases edgeAt earlier second with _ | e'
      · rfl
      · exact congrArg (some ∘ Fragment.edge) (Edge.replace_or _ e e').symm
  | allOf edges =>
    rw [build, build, edgesAt_rename, Edge.replace_allOf]
    cases Edge.allOf (edges.filterMap (edgeAt earlier)) <;> rfl
  | anyOf edges =>
    rw [build, build, edgesAt_rename, Edge.replace_anyOf]
    cases Edge.anyOf (edges.filterMap (edgeAt earlier)) <;> rfl
  | attach node edge =>
    rw [build, build, nodeAt_rename, edgeAt_rename]
    rcases nodeAt earlier node with _ | n
    · rfl
    · rcases edgeAt earlier edge with _ | e
      · rfl
      · exact congrArg (some ∘ Fragment.node) (Node.replace_and _ n e).symm
  | filtered node comparison value =>
    rw [build, build, nodeAt_rename, nodeAt_rename]
    rcases nodeAt earlier node with _ | n
    · rfl
    · rcases nodeAt earlier value with _ | v
      · rfl
      · exact congrArg (some ∘ Fragment.node) (Node.replace_filtered _ n comparison v).symm
  | ordered node order =>
    rw [build, build, nodeAt_rename]
    cases nodeAt earlier node with
    | none => rfl
    | some n => exact congrArg (some ∘ Fragment.node) (Node.replace_ordered _ n order).symm

namespace Provider

variable (provider : Provider κ)

theorem shifted_stepPlan (earlier : List (Answer κ)) {step : Step κ}
    (grounded : step.IsGrounded σ.start) :
    (provider.stepPlan earlier step).Shifted σ (Fragment.rename σ)
      (provider.stepPlan (earlier.map (Answer.rename σ)) step) := by
  cases step with
  | fresh => exact .makes (Allotment.shifted_fresh.map fun _ => rfl)
  | build recipe =>
    rw [stepPlan, stepPlan, Recipe.build_rename earlier grounded]
    exact Plan.shifted_ofOption _
  | ask request =>
    have before : ∀ id ∈ request.given, id < σ.start := by
      rw [Request.given]
      cases about : request.node? with
      | none => exact List.forall_mem_nil _
      | some node => exact grounded (.node node) (by simp [Step.brought, about])
    have plan := provider.shifted_plan σ request
    rwa [Request.rename_eq_self before] at plan
  | askAbout request place =>
    rw [stepPlan, stepPlan, nodeAt_rename]
    cases nodeAt earlier place with
    | none => exact .fails 0 .notAvailable
    | some node =>
      have plan := provider.shifted_plan σ (request.about node)
      rwa [Request.rename_about] at plan

theorem answer_rename (earlier : List (Answer κ)) {step : Step κ} {s : Supply}
    (le : σ.start ≤ s.next) (grounded : step.IsGrounded σ.start) :
    provider.answer (earlier.map (Answer.rename σ)) step ⟨s.next + σ.distance⟩ =
      (provider.answer earlier step s).rename σ := by
  have shifted := provider.shifted_stepPlan earlier grounded
  rw [answer, answer, shifted.result_eq le, shifted.count_eq, Nat.add_right_comm]
  rfl

theorem session_rename (σ : Shift) (earlier : List (Answer κ)) {steps : List (Step κ)} {s : Supply}
    (le : σ.start ≤ s.next) (grounded : ∀ step ∈ steps, step.IsGrounded σ.start) :
    provider.session (earlier.map (Answer.rename σ)) steps ⟨s.next + σ.distance⟩ =
      (provider.session earlier steps s).map (Answer.rename σ) := by
  induction steps generalizing earlier s with
  | nil => rfl
  | cons step steps ih =>
    obtain ⟨here, later⟩ := List.forall_mem_cons.mp grounded
    have first := provider.answer_rename earlier le here
    have le' : σ.start ≤ (provider.answer earlier step s).left.next :=
      Nat.le_add_right_of_le le
    -- later steps use renamed answers
    have rest := ih (earlier ++ [provider.answer earlier step s]) le' later
    rw [List.map_append, List.map_singleton] at rest
    rw [session_cons, session_cons, first, List.map_cons]
    exact congrArg _ rest

/-- From a supply that starts later, a request that is about known variables only fails with the
same error or has the same answer, with the variables moved that were taken for it; and it takes as
many of them. So does every step of a session, in which answers are put together and asked about. -/
theorem outcome_shifted :
    (∀ (request : Request κ) (n distance : Nat), (∀ id ∈ request.given, id < n) →
      Making.outcome (provider.make request) ⟨n + distance⟩ =
        let (result, left) := Making.outcome (provider.make request) ⟨n⟩
        (result.map (Fragment.rename ⟨n, distance⟩), ⟨left.next + distance⟩)) ∧
    ∀ (steps : List (Step κ)) (n distance : Nat), (∀ step ∈ steps, step.IsGrounded n) →
      provider.session [] steps ⟨n + distance⟩ =
        (provider.session [] steps ⟨n⟩).map (Answer.rename ⟨n, distance⟩) := by
  constructor
  · intro request n distance before
    have shifted := provider.shifted_plan ⟨n, distance⟩ request
    rw [Request.rename_eq_self before] at shifted
    rw [provider.follows_make, provider.follows_make, shifted.result_eq (Nat.le_refl n)]
    rw [Nat.add_right_comm]
  · intro steps n distance grounded
    exact provider.session_rename ⟨n, distance⟩ [] (Nat.le_refl n) grounded

/-- The oldest mother and her age are other variables, and the place remains what it is. -/
theorem outcome_shifted_children :
    ∃ provider, ofOntology Sample.ontology {} = .ok provider ∧
      (provider.session [] Sample.children ⟨1⟩).map (·.result.toOption.map Fragment.vars) =
        [some [0], some [0, 0], some [2, 1], some [2, 1, 0, 0], some [2, 1, 0, 0]] ∧
      ∀ distance, provider.session [] Sample.children ⟨1 + distance⟩ =
        (provider.session [] Sample.children ⟨1⟩).map (Answer.rename ⟨1, distance⟩) := by
  have computed : (ofOntology Sample.ontology {}).toOption.map (fun provider =>
      (provider.session [] Sample.children ⟨1⟩).map (·.result.toOption.map Fragment.vars)) =
      some [some [0], some [0, 0], some [2, 1], some [2, 1, 0, 0], some [2, 1, 0, 0]] := by
    decide +kernel
  obtain ⟨provider, built, computed⟩ := map_toOption_eq_some.mp computed
  refine ⟨provider, built, computed, fun distance => ?_⟩
  refine (outcome_shifted provider).2 Sample.children 1 distance ?_
  simp [Sample.children, Step.IsGrounded, Step.brought, Request.node?, Fragment.vars]

end Provider

end PhraseGraph
