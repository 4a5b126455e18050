import PhraseGraph.Ontology.Sample
import PhraseGraph.Proofs.Fragment.Normal
import PhraseGraph.Proofs.Outcomes
import PhraseGraph.Proofs.Provider.Sessions

/-!
# PhraseGraph.Proofs.Provider.Normal

Answers are normal if the nodes are that requests are about.

## Main statements

`Provider.ensures_plan`: what comes of a request about a normal node is normal.
`Provider.isNormal_answers`: so is all that comes of a session that normal fragments are brought to.
-/

namespace PhraseGraph

variable {κ : KnowledgeBase} {α β γ : Type}

/-- Everything is normal that may be made. -/
def Allotment.Ensures (p : α → Prop) (a : Allotment α) : Prop := ∀ n, p (a.made n)

def Plan.Ensures (p : α → Prop) : Plan α → Prop
  | .makes a => a.Ensures p
  | .fails _ _ => True

theorem Edge.isNormal_alternatives {es : List (Edge κ)} (nonempty : es ≠ [])
    (normal : ∀ e ∈ es, e.IsNormal ∧ e.isDisjunction = false) : (alternatives es).IsNormal := by
  match es with
  | [] => exact absurd rfl nonempty
  | [e] => exact (normal e List.mem_cons_self).1
  | e :: f :: es =>
    exact isNormal_disjunction.mpr
      ⟨Nat.le_add_left 2 es.length, fun g inside => (normal g inside).symm⟩

theorem DirectedProperty.isNormal_edge (d : DirectedProperty κ) {node : Node κ}
    (normal : node.IsNormal) : (d.edge node).IsNormal := by
  obtain ⟨property, direction⟩ := d
  cases direction with
  | outgoing => exact Edge.isNormal_outgoing.mpr normal
  | incoming => exact Edge.isNormal_incoming.mpr normal

/-! ### Rules -/

namespace Allotment

variable {p : α → Prop} {q : β → Prop} {a : Allotment α}

theorem Ensures.map {f : α → β} (ensures : a.Ensures p) (kept : ∀ x, p x → q (f x)) :
    (a.map f).Ensures q :=
  fun n => kept _ (ensures n)

theorem Ensures.map₂ {r : γ → Prop} {b : Allotment β} {f : α → β → γ} (first : a.Ensures p)
    (second : b.Ensures q) (kept : ∀ x y, p x → q y → r (f x y)) : (a.map₂ f b).Ensures r :=
  fun n => kept _ _ (first n) (second (n + a.count))

theorem ensures_fresh : (fresh (κ := κ)).Ensures Node.IsNormal := fun _ => Node.isNormal_of_label _

theorem ensures_traverse {f : α → Allotment β} {as : List α}
    (each : ∀ a ∈ as, (f a).Ensures q) : (traverse f as).Ensures fun bs => ∀ b ∈ bs, q b :=
  forall_mem_traverse each

theorem ensures_compared {node : Node κ} (normal : node.IsNormal)
    (comparison : Option Comparison) : (compared node comparison).Ensures Node.IsNormal := by
  cases comparison with
  | none => exact fun _ => normal
  | some comparison => exact ensures_fresh.map fun v made => Node.isNormal_filtered made _ normal

end Allotment

namespace Plan

variable {p : α → Prop} {q : β → Prop}

theorem Ensures.map {plan : Plan α} {f : α → β} (ensures : plan.Ensures p)
    (kept : ∀ x, p x → q (f x)) : (plan.map f).Ensures q := by
  cases plan with
  | makes a => exact Allotment.Ensures.map ensures kept
  | fails lost e => trivial

theorem Ensures.result {plan : Plan α}
    (ensures : plan.Ensures p) {n : Nat} {x : α} (returned : plan.result n = .ok x) : p x := by
  cases plan with
  | makes a =>
    cases returned
    exact ensures n
  | fails lost e => cases returned

theorem ensures_ofOption {o : Option α} (found : ∀ x ∈ o, p x) : (ofOption o).Ensures p := by
  cases o with
  | none => trivial
  | some x => exact fun _ => found x rfl

/-- Alternatives that are no disjunctions themselves. -/
theorem ensures_disjunction {f : α → Allotment (Edge κ)} {as : List α}
    (each : ∀ a ∈ as, (f a).Ensures fun e => e.IsNormal ∧ e.isDisjunction = false) :
    (disjunction f as).Ensures Edge.IsNormal := by
  cases as with
  | nil => trivial
  | cons a as =>
    intro n
    exact Edge.isNormal_alternatives (List.cons_ne_nil _ _) (Allotment.ensures_traverse each n)

end Plan

/-! ### Requests -/

/-- The node of the request, if it is about any, is normal. -/
def Request.IsNormal (request : Request κ) : Prop := ∀ node ∈ request.node?, node.IsNormal

theorem Request.isNormal_about (request : Request κ) {node : Node κ} (normal : node.IsNormal) :
    (request.about node).IsNormal := by
  cases request <;> simp [about, Request.IsNormal, node?, normal]

theorem isNormal_of_relations {ds : List (DirectedProperty κ)} {node : Node κ}
    (normal : node.IsNormal) : ∀ e ∈ Edge.anyOf (ds.map fun d => d.edge node), e.IsNormal :=
  Edge.isNormal_anyOf (List.forall_mem_map.mpr fun d _ => d.isNormal_edge normal)

namespace Provider

variable (provider : Provider κ)

theorem ensures_personPlan : provider.personPlan.Ensures Edge.IsNormal := by
  refine Plan.ensures_ofOption fun e found => ?_
  obtain ⟨person, -, found⟩ := Option.bind_eq_some_iff.mp found
  obtain ⟨property, -, found⟩ := Option.bind_eq_some_iff.mp found
  cases found
  exact Edge.isNormal_isA _ _

theorem ensures_namedPropertyPlan (name : List Token) :
    (provider.namedPropertyPlan name).Ensures Edge.IsNormal := by
  refine Plan.ensures_disjunction fun property _ => Allotment.ensures_fresh.map fun v normal => ?_
  exact ⟨Edge.isNormal_outgoing.mpr normal, rfl⟩

theorem ensures_inversePropertyPlan (name : List Token) {node : Node κ} (normal : node.IsNormal)
    (context : Context) :
    (provider.inversePropertyPlan name node context).Ensures Edge.IsNormal := by
  refine Plan.ensures_disjunction fun usage _ => ?_
  refine (Allotment.ensures_compared normal usage.comparison).map fun source normal => ?_
  exact ⟨Edge.isNormal_incoming.mpr normal, rfl⟩

theorem ensures_usagePlan {node : Node κ} (normal : node.IsNormal)
    (usages : List (PropertyUsage κ)) : (usagePlan node usages).Ensures Edge.IsNormal := by
  refine Plan.ensures_disjunction fun usage _ => ?_
  refine (Allotment.ensures_compared normal usage.comparison).map fun target normal => ?_
  exact ⟨Edge.isNormal_outgoing.mpr normal, rfl⟩

theorem ensures_reference {node : Node κ} (normal : node.IsNormal) (property : PropertyRef κ) :
    (reference node property).Ensures Node.IsNormal := by
  rw [reference]
  split
  · exact fun _ => normal
  · refine Allotment.ensures_fresh.map fun v made => ?_
    exact Node.isNormal_and made (Edge.isNormal_incoming.mpr normal)

theorem ensures_comparativePropertyPlan (name : List Token) {node : Node κ}
    (normal : node.IsNormal) (context : Context) :
    (provider.comparativePropertyPlan name node context).Ensures Edge.IsNormal := by
  refine Plan.ensures_disjunction fun usage _ => ?_
  refine Allotment.ensures_fresh.map₂ (ensures_reference normal usage.property) ?_
  intro value reference made compared
  exact ⟨Edge.isNormal_outgoing.mpr (Node.isNormal_filtered made _ compared), rfl⟩

theorem ensures_valuePropertyPlan (name : List Token) {node : Node κ} (normal : node.IsNormal)
    (context : Context) :
    (provider.valuePropertyPlan name node context).Ensures Edge.IsNormal := by
  rw [valuePropertyPlan]
  split
  · refine Plan.ensures_ofOption fun e found => ?_
    obtain ⟨subject, -, found⟩ := Option.bind_eq_some_iff.mp found
    exact isNormal_of_relations normal e found
  · exact ensures_usagePlan normal _

theorem ensures_attributeEdge (found : TokenMatch (Attribute κ)) :
    (attributeEdge found).Ensures Edge.IsNormal := by
  refine Allotment.ensures_fresh.map fun v normal => Edge.isNormal_outgoing.mpr ?_
  cases found.result.order with
  | none => exact normal
  | some order => exact Node.isNormal_ordered normal order

/-- The edge may be a conjunction already, which is opened when the edge is combined again. -/
theorem ensures_classAllotment {name : List Token} (named : (provider.classPhrase name).2 ≠ [])
    (instanceProperty : PropertyRef κ) :
    (provider.classAllotment instanceProperty name).Ensures (·.edge.IsNormal) := by
  rw [classAllotment]
  rcases phrase : provider.classPhrase name with ⟨attributes, classes⟩
  rw [phrase] at named
  have isA : (Edge.alternatives (classes.map (Edge.isA instanceProperty))).IsNormal := by
    refine Edge.isNormal_alternatives (List.map_eq_nil_iff.not.mpr named) ?_
    exact List.forall_mem_map.mpr fun c _ => ⟨Edge.isNormal_isA _ c, rfl⟩
  have adjectives := Allotment.ensures_traverse fun found (_ : found ∈ attributes) =>
    ensures_attributeEdge found
  refine adjectives.map fun es normal => ?_
  dsimp only
  cases combined : Edge.anyOf es with
  | none => exact isA
  | some e => exact Edge.isNormal_and isA (Edge.isNormal_anyOf normal e combined)

theorem ensures_of_classReading {name : List Token} {a : Allotment (ClassEdge κ)}
    (read : provider.classReading name = .ok (some a)) : a.Ensures (·.edge.IsNormal) := by
  rw [classReading] at read
  split at read
  next => cases read
  next named =>
    split at read
    · cases read
      exact provider.ensures_classAllotment (List.isEmpty_iff.not.mp named) _
    · cases read

theorem ensures_relationshipPlan (name : List Token) {node : Node κ} (normal : node.IsNormal) :
    (provider.relationshipPlan name node).Ensures Edge.IsNormal := by
  rw [relationshipPlan]
  rcases read : provider.classReading name with e | _ | a
  · trivial
  · trivial
  · cases related : provider.related? name node with
    | none => trivial
    | some edge =>
      refine (provider.ensures_of_classReading read).map fun c described => ?_
      exact Edge.isNormal_and described (isNormal_of_relations normal edge related)

theorem ensures_valueNodePlan (name : List Token) :
    (provider.valueNodePlan name).Ensures Node.IsNormal := by
  rw [valueNodePlan]
  rcases read : provider.classReading name with e | _ | a
  · trivial
  · dsimp only
    rw [labelPlan]
    split
    · exact Allotment.ensures_fresh.map fun v made =>
        Node.isNormal_and made (Edge.isNormal_hasLabel _ _)
    · trivial
  · refine (provider.ensures_of_classReading read).map₂ Allotment.ensures_fresh ?_
    exact fun c v described made => Node.isNormal_and made described

theorem ensures_numberPlan (number unit : List Token) :
    (numberPlan number unit : Plan (Node κ)).Ensures Node.IsNormal := by
  rw [numberPlan]
  split
  · trivial
  · exact fun _ => Node.isNormal_of_label _

/-- What comes of a request about a normal node is normal. -/
theorem ensures_plan {request : Request κ} (normal : request.IsNormal) :
    (provider.plan request).Ensures Fragment.IsNormal := by
  cases request with
  | personEdge => exact provider.ensures_personPlan.map fun _ => id
  | namedPropertyEdge name => exact (provider.ensures_namedPropertyPlan name).map fun _ => id
  | inversePropertyEdge name node context =>
    exact (provider.ensures_inversePropertyPlan name (normal node rfl) context).map fun _ => id
  | adjectivePropertyEdge name node context =>
    exact (ensures_usagePlan (normal node rfl) _).map fun _ => id
  | comparativePropertyEdge name node context =>
    exact (provider.ensures_comparativePropertyPlan name (normal node rfl) context).map
      fun _ => id
  | valuePropertyEdge name node context =>
    exact (provider.ensures_valuePropertyPlan name (normal node rfl) context).map fun _ => id
  | relationshipEdge name node =>
    exact (provider.ensures_relationshipPlan name (normal node rfl)).map fun _ => id
  | valueNode name => exact (provider.ensures_valueNodePlan name).map fun _ => id
  | numberNode number unit => exact (ensures_numberPlan number unit).map fun _ => id

end Provider

/-! ### Sessions -/

namespace Answer

/-- What was given, if anything, is normal. -/
def IsNormal (answer : Answer κ) : Prop := ∀ f, answer.result = .ok f → f.IsNormal

variable {earlier : List (Answer κ)} {place : Nat}

theorem isNormal_fragmentAt (normal : ∀ answer ∈ earlier, answer.IsNormal) :
    ∀ f ∈ fragmentAt earlier place, f.IsNormal := by
  intro f found
  obtain ⟨answer, member, given⟩ := Option.bind_eq_some_iff.mp found
  refine normal answer (List.mem_of_getElem? member) f ?_
  cases result : answer.result with
  | error e => rw [result] at given; cases given
  | ok g => rw [result] at given; cases given; rfl

theorem isNormal_nodeAt (normal : ∀ answer ∈ earlier, answer.IsNormal) :
    ∀ n ∈ nodeAt earlier place, n.IsNormal := by
  intro n found
  obtain ⟨f, given, node⟩ := Option.bind_eq_some_iff.mp found
  have known := isNormal_fragmentAt normal f given
  cases f with
  | node m => cases node; exact known
  | edge e => cases node

theorem isNormal_edgeAt (normal : ∀ answer ∈ earlier, answer.IsNormal) :
    ∀ e ∈ edgeAt earlier place, e.IsNormal := by
  intro e found
  obtain ⟨f, given, edge⟩ := Option.bind_eq_some_iff.mp found
  have known := isNormal_fragmentAt normal f given
  cases f with
  | node m => cases edge
  | edge e => cases edge; exact known

theorem isNormal_edgesAt (normal : ∀ answer ∈ earlier, answer.IsNormal) (places : List Nat) :
    ∀ e ∈ places.filterMap (edgeAt earlier), e.IsNormal := by
  intro e member
  obtain ⟨place, -, given⟩ := List.mem_filterMap.mp member
  exact isNormal_edgeAt normal e given

end Answer

open Answer

theorem Recipe.isNormal_build {earlier : List (Answer κ)}
    (normal : ∀ answer ∈ earlier, answer.IsNormal) {recipe : Recipe κ}
    (brought : ∀ f ∈ (Step.build recipe).brought, f.IsNormal) :
    ∀ f ∈ recipe.build earlier, f.IsNormal := by
  intro f built
  cases recipe with
  | known g =>
    cases built
    exact brought f List.mem_cons_self
  | outgoing property node =>
    obtain ⟨n, found, ⟨⟩⟩ := Option.bind_eq_some_iff.mp built
    change (Edge.outgoing property n).IsNormal
    exact Edge.isNormal_outgoing.mpr (isNormal_nodeAt normal n found)
  | incoming node property =>
    obtain ⟨n, found, ⟨⟩⟩ := Option.bind_eq_some_iff.mp built
    change (Edge.incoming n property).IsNormal
    exact Edge.isNormal_incoming.mpr (isNormal_nodeAt normal n found)
  | and first second =>
    obtain ⟨e, found, built⟩ := Option.bind_eq_some_iff.mp built
    obtain ⟨e', found', ⟨⟩⟩ := Option.bind_eq_some_iff.mp built
    exact Edge.isNormal_and (isNormal_edgeAt normal e found) (isNormal_edgeAt normal e' found')
  | or first second =>
    obtain ⟨e, found, built⟩ := Option.bind_eq_some_iff.mp built
    obtain ⟨e', found', ⟨⟩⟩ := Option.bind_eq_some_iff.mp built
    exact Edge.isNormal_or (isNormal_edgeAt normal e found) (isNormal_edgeAt normal e' found')
  | allOf edges =>
    obtain ⟨e, combined, ⟨⟩⟩ := Option.bind_eq_some_iff.mp built
    exact Edge.isNormal_allOf (isNormal_edgesAt normal edges) e combined
  | anyOf edges =>
    obtain ⟨e, combined, ⟨⟩⟩ := Option.bind_eq_some_iff.mp built
    exact Edge.isNormal_anyOf (isNormal_edgesAt normal edges) e combined
  | attach node edge =>
    obtain ⟨n, found, built⟩ := Option.bind_eq_some_iff.mp built
    obtain ⟨e, found', ⟨⟩⟩ := Option.bind_eq_some_iff.mp built
    exact Node.isNormal_and (isNormal_nodeAt normal n found) (isNormal_edgeAt normal e found')
  | filtered node comparison value =>
    obtain ⟨n, found, built⟩ := Option.bind_eq_some_iff.mp built
    obtain ⟨v, found', ⟨⟩⟩ := Option.bind_eq_some_iff.mp built
    exact Node.isNormal_filtered (isNormal_nodeAt normal n found) _
      (isNormal_nodeAt normal v found')
  | ordered node order =>
    obtain ⟨n, found, ⟨⟩⟩ := Option.bind_eq_some_iff.mp built
    exact Node.isNormal_ordered (isNormal_nodeAt normal n found) order

namespace Provider

variable (provider : Provider κ)

theorem ensures_stepPlan {earlier : List (Answer κ)}
    (normal : ∀ answer ∈ earlier, answer.IsNormal) {step : Step κ}
    (brought : ∀ f ∈ step.brought, f.IsNormal) :
    (provider.stepPlan earlier step).Ensures Fragment.IsNormal := by
  cases step with
  | fresh => exact Allotment.ensures_fresh.map fun _ => id
  | build recipe => exact Plan.ensures_ofOption (Recipe.isNormal_build normal brought)
  | ask request =>
    refine provider.ensures_plan fun node given => brought (.node node) ?_
    exact List.mem_map_of_mem (Option.mem_toList.mpr given)
  | askAbout request place =>
    rw [stepPlan]
    cases found : nodeAt earlier place with
    | none => trivial
    | some node =>
      exact provider.ensures_plan (request.isNormal_about (isNormal_nodeAt normal node found))

theorem isNormal_session {earlier : List (Answer κ)} {steps : List (Step κ)} {s : Supply}
    (normal : ∀ answer ∈ earlier, answer.IsNormal)
    (brought : ∀ step ∈ steps, ∀ f ∈ step.brought, f.IsNormal) :
    ∀ answer ∈ provider.session earlier steps s, answer.IsNormal := by
  induction steps generalizing earlier s with
  | nil => exact nofun
  | cons step steps ih =>
    obtain ⟨here, later⟩ := List.forall_mem_cons.mp brought
    -- a normal answer is added to those that later steps use
    have first : (provider.answer earlier step s).IsNormal := fun f given =>
      (provider.ensures_stepPlan normal here).result given
    rw [session_cons]
    refine List.forall_mem_cons.mpr ⟨first, ih ?_ later⟩
    exact List.forall_mem_append.mpr ⟨normal, List.forall_mem_singleton.mpr first⟩

/-- What is answered about a normal node is normal. So is all that comes of a session, however its
answers are put together and asked about again, if the fragments are normal that are brought to
it. -/
theorem isNormal_answers :
    (∀ (request : Request κ) s s' f, request.IsNormal →
      Making.outcome (provider.make request) s = (.ok f, s') → f.IsNormal) ∧
    ∀ (steps : List (Step κ)) s, (∀ step ∈ steps, ∀ f ∈ step.brought, f.IsNormal) →
      ∀ answer ∈ provider.session [] steps s, ∀ f, answer.result = .ok f → f.IsNormal := by
  constructor
  · intro request s s' f normal returned
    rw [provider.follows_make] at returned
    exact (provider.ensures_plan normal).result (Prod.mk.inj returned).1
  · intro steps s brought
    exact provider.isNormal_session (List.forall_mem_nil _) brought

/-- All five answers are there, and they are normal. -/
theorem isNormal_answers_children :
    ∃ provider, ofOntology Sample.ontology {} = .ok provider ∧
      (provider.session [] Sample.children ⟨1⟩).length = 5 ∧
      ∀ answer ∈ provider.session [] Sample.children ⟨1⟩,
        ∃ f, answer.result = .ok f ∧ f.IsNormal := by
  have computed : (ofOntology Sample.ontology {}).toOption.map (fun provider =>
      (provider.session [] Sample.children ⟨1⟩).map (·.result.toOption.isSome)) =
      some (List.replicate 5 true) := by decide +kernel
  obtain ⟨provider, built, computed⟩ := map_toOption_eq_some.mp computed
  refine ⟨provider, built, by simpa using congrArg List.length computed, fun answer member => ?_⟩
  have given : answer.result.toOption.isSome ∈ List.replicate 5 true :=
    computed ▸ List.mem_map_of_mem member
  obtain ⟨f, returned⟩ := isSome_toOption.mp (List.eq_of_mem_replicate given)
  refine ⟨f, returned, ?_⟩
  refine (isNormal_answers provider).2 Sample.children ⟨1⟩ ?_ answer member f returned
  simp [Sample.children, Step.brought, Request.node?, Fragment.IsNormal, Node.var,
    Node.isNormal_of_label]

end Provider

end PhraseGraph
