import PhraseGraph.Proofs.Provider.Plans

/-!
# PhraseGraph.Proofs.Provider.Requests

The plans of all requests, and runs of requests on one supply.

## Main statements

`Provider.follows_make`: every request is answered as its plan tells.
`Provider.eq_call_of_mem_run`: so is every request of a run.
-/

namespace PhraseGraph

variable {κ : KnowledgeBase}

/-- What a provider is asked to make. Whether filters are alternatives is not among the requests,
since that takes no supply. -/
inductive Request (κ : KnowledgeBase) where
  | personEdge
  | namedPropertyEdge (name : List Token)
  | inversePropertyEdge (name : List Token) (node : Node κ) (context : Context)
  | adjectivePropertyEdge (name : List Token) (node : Node κ) (context : Context)
  | comparativePropertyEdge (name : List Token) (node : Node κ) (context : Context)
  | valuePropertyEdge (name : List Token) (node : Node κ) (context : Context)
  | relationshipEdge (name : List Token) (node : Node κ)
  | valueNode (name : List Token)
  | numberNode (number unit : List Token)

/-- The node that comes with a request. -/
def Request.node? : Request κ → Option (Node κ)
  | .inversePropertyEdge _ node _ => some node
  | .adjectivePropertyEdge _ node _ => some node
  | .comparativePropertyEdge _ node _ => some node
  | .valuePropertyEdge _ node _ => some node
  | .relationshipEdge _ node => some node
  | .personEdge => none
  | .namedPropertyEdge _ => none
  | .valueNode _ => none
  | .numberNode _ _ => none

namespace Provider

variable (provider : Provider κ)

def make : Request κ → Making (Fragment κ)
  | .personEdge => do return .edge (← provider.personEdge)
  | .namedPropertyEdge name => do return .edge (← provider.namedPropertyEdge name)
  | .inversePropertyEdge name node context => do
    return .edge (← provider.inversePropertyEdge name node context)
  | .adjectivePropertyEdge name node context => do
    return .edge (← provider.adjectivePropertyEdge name node context)
  | .comparativePropertyEdge name node context => do
    return .edge (← provider.comparativePropertyEdge name node context)
  | .valuePropertyEdge name node context => do
    return .edge (← provider.valuePropertyEdge name node context)
  | .relationshipEdge name node => do return .edge (← provider.relationshipEdge name node)
  | .valueNode name => do return .node (← provider.valueNode name)
  | .numberNode number unit => do return .node (← numberNode number unit)

/-! ### Plans of requests -/

def personPlan : Plan (Edge κ) :=
  .ofOption do
    let person ← provider.index.ontology.personClass?
    let instanceProperty ← provider.index.ontology.instanceProperty?
    return Edge.isA instanceProperty.ref person.ref

def namedPropertyPlan (name : List Token) : Plan (Edge κ) :=
  .disjunction (fun property => Allotment.fresh.map (Edge.outgoing property))
    (provider.index.namedProperties name)

def inversePropertyPlan (name : List Token) (node : Node κ) (context : Context) : Plan (Edge κ) :=
  .disjunction
    (fun usage => (Allotment.compared node usage.comparison).map (Edge.incoming · usage.property))
    (provider.index.inverseProperties (name ++ context.filter))

/-- The edges to a node of which properties are said. -/
def usagePlan (node : Node κ) (usages : List (PropertyUsage κ)) : Plan (Edge κ) :=
  .disjunction
    (fun usage => (Allotment.compared node usage.comparison).map (Edge.outgoing usage.property))
    usages

def adjectivePropertyPlan (name : List Token) (node : Node κ) (context : Context) :
    Plan (Edge κ) :=
  usagePlan node (provider.index.adjectiveProperties (name ++ context.filter))

/-- What a value is compared with: a quantity, or another value of the property. -/
def reference (node : Node κ) (property : PropertyRef κ) : Allotment (Node κ) :=
  if node.isQuantity then .const node
  else Allotment.fresh.map fun v => v.incoming node property

def comparativePropertyPlan (name : List Token) (node : Node κ) (context : Context) :
    Plan (Edge κ) :=
  .disjunction
    (fun usage => Allotment.fresh.map₂
      (fun v reference => Edge.outgoing usage.property (v.filtered usage.comparison reference))
      (reference node usage.property))
    (provider.index.comparativeProperties (name ++ context.filter))

def valuePropertyPlan (name : List Token) (node : Node κ) (context : Context) : Plan (Edge κ) :=
  let usages := provider.index.valueProperties (name ++ context.filter)
  if usages.isEmpty then
    .ofOption do
      let subject ← context.namedSubject?
      let relations := provider.index.relationProperties (subject ++ context.filter)
      Edge.anyOf (relations.map fun relation => relation.edge node)
  else usagePlan node usages

def attributeEdge (found : TokenMatch (Attribute κ)) : Allotment (Edge κ) :=
  Allotment.fresh.map fun v => Edge.outgoing found.result.property
    (match found.result.order with
      | some order => v.ordered order
      | none => v)

/-- The edge of classes, with one variable for each adjective. -/
def classAllotment (instanceProperty : PropertyRef κ) (name : List Token) :
    Allotment (ClassEdge κ) :=
  let (attributes, classes) := provider.classPhrase name
  (Allotment.traverse attributeEdge attributes).map fun adjectives =>
    let isA := Edge.alternatives (classes.map (Edge.isA instanceProperty))
    { edge := match Edge.anyOf adjectives with
        | some adjectives => isA.and adjectives
        | none => isA
      classes }

/-- How a phrase is read that may name classes: not at all, if there are no instances to speak of;
and none, if it names no class. -/
def classReading (name : List Token) : Except ProviderError (Option (Allotment (ClassEdge κ))) :=
  if (provider.classPhrase name).2.isEmpty then .ok none
  else
    match provider.index.ontology.instanceProperty? with
    | some instanceProperty => .ok (some (provider.classAllotment instanceProperty.ref name))
    | none => .error .notAvailable

/-- The edge to what the instances of the classes are related to that a phrase names, if they are
related to anything. -/
def related? (name : List Token) (node : Node κ) : Option (Edge κ) :=
  let relations := (provider.index.relationProperties name ++
    (provider.classPhrase name).2.flatMap provider.index.segmentsOf).eraseDups
  Edge.anyOf (relations.map fun relation => relation.edge node)

def relationshipPlan (name : List Token) (node : Node κ) : Plan (Edge κ) :=
  match provider.classReading name with
  | .error e => .fails 0 e
  | .ok none => .fails 0 .notAvailable
  | .ok (some a) =>
    match provider.related? name node with
    | some related => .makes (a.map fun c => c.edge.and related)
    | none => .fails a.count .notAvailable

def labelPlan (name : List Token) : Plan (Node κ) :=
  match provider.index.ontology.labelProperty? with
  | some labelProperty => .makes (Allotment.fresh.map fun v =>
      v.and (.hasLabel labelProperty.ref (String.intercalate " " (name.map Token.word))))
  | none => .fails 0 .notAvailable

def valueNodePlan (name : List Token) : Plan (Node κ) :=
  match provider.classReading name with
  | .error e => .fails 0 e
  | .ok none => provider.labelPlan name
  | .ok (some a) => .makes (a.map₂ (fun c v => v.and c.edge) .fresh)

def numberPlan (number unit : List Token) : Plan (Node κ) :=
  let text := String.intercalate " " (number.map Token.headword)
  match Binary64.read? text with
  | none => .fails 0 (.invalidNumber text)
  | some value => .makes (.const (.quantity value
      (if unit.isEmpty then none else some (String.intercalate " " (unit.map Token.headword)))))

def plan : Request κ → Plan (Fragment κ)
  | .personEdge => provider.personPlan.map .edge
  | .namedPropertyEdge name => (provider.namedPropertyPlan name).map .edge
  | .inversePropertyEdge name node context =>
    (provider.inversePropertyPlan name node context).map .edge
  | .adjectivePropertyEdge name node context =>
    (provider.adjectivePropertyPlan name node context).map .edge
  | .comparativePropertyEdge name node context =>
    (provider.comparativePropertyPlan name node context).map .edge
  | .valuePropertyEdge name node context =>
    (provider.valuePropertyPlan name node context).map .edge
  | .relationshipEdge name node => (provider.relationshipPlan name node).map .edge
  | .valueNode name => (provider.valueNodePlan name).map .node
  | .numberNode number unit => (numberPlan number unit).map .node

/-! ### Requests follow their plans -/

theorem follows_personEdge : Follows provider.personEdge provider.personPlan := by
  rw [personEdge, personPlan]
  cases provider.index.ontology.personClass? with
  | none => exact (Follows.available none).stop
  | some person =>
    refine (Follows.available (some person)).bind_const ?_
    rw [instanceProperty]
    cases provider.index.ontology.instanceProperty? with
    | none => exact (Follows.available none).stop
    | some property => exact (Follows.available (some property.ref)).map (Edge.isA · person.ref)

theorem follows_namedPropertyEdge (name : List Token) :
    Follows (provider.namedPropertyEdge name) (provider.namedPropertyPlan name) :=
  Follows.disjunction (fun property _ => Follows.fresh.map (Edge.outgoing property))
    fun _ _ _ => rfl

theorem follows_inversePropertyEdge (name : List Token) (node : Node κ) (context : Context) :
    Follows (provider.inversePropertyEdge name node context)
      (provider.inversePropertyPlan name node context) :=
  Follows.disjunction
    (fun usage _ => (Follows.compared node usage.comparison).map (Edge.incoming · usage.property))
    fun _ _ _ => rfl

theorem follows_usages (node : Node κ) (usages : List (PropertyUsage κ)) :
    Follows (usages.mapM (fun usage => do
        return Edge.outgoing usage.property (← Making.compared node usage.comparison)) >>=
      Making.disjunction) (usagePlan node usages) :=
  Follows.disjunction
    (fun usage _ => (Follows.compared node usage.comparison).map (Edge.outgoing usage.property))
    fun _ _ _ => rfl

theorem follows_adjectivePropertyEdge (name : List Token) (node : Node κ) (context : Context) :
    Follows (provider.adjectivePropertyEdge name node context)
      (provider.adjectivePropertyPlan name node context) :=
  follows_usages node _

theorem follows_comparativePropertyEdge (name : List Token) (node : Node κ) (context : Context) :
    Follows (provider.comparativePropertyEdge name node context)
      (provider.comparativePropertyPlan name node context) := by
  refine Follows.disjunction (fun usage _ => ?_) fun _ _ _ => rfl
  rw [reference]
  cases node.isQuantity with
  | true => exact Follows.fresh.map₂ _ (Follows.pure node)
  | false => exact Follows.fresh.map₂ _ Follows.fresh

theorem follows_valuePropertyEdge (name : List Token) (node : Node κ) (context : Context) :
    Follows (provider.valuePropertyEdge name node context)
      (provider.valuePropertyPlan name node context) := by
  rw [valuePropertyEdge, valuePropertyPlan]
  cases (provider.index.valueProperties (name ++ context.filter)).isEmpty with
  | true =>
    cases context.namedSubject? with
    | none => exact (Follows.available none).stop
    | some subject => exact (Follows.available (some subject)).bind_const (Follows.available _)
  | false => exact follows_usages node _

theorem follows_attributes (attributes : List (TokenMatch (Attribute κ))) :
    Follows (attributes.mapM fun found => do
        let node ← Making.fresh
        let node := match found.result.order with
          | some order => node.ordered order
          | none => node
        return Edge.outgoing found.result.property node)
      (.makes (.traverse attributeEdge attributes)) :=
  Follows.mapM fun found _ => Follows.fresh.map fun v => Edge.outgoing found.result.property
    (match found.result.order with
      | some order => v.ordered order
      | none => v)

theorem follows_classEdge (name : List Token) :
    Follows (provider.classEdge name)
      (match provider.classReading name with
        | .error e => .fails 0 e
        | .ok none => .makes (.const none)
        | .ok (some a) => .makes (a.map some)) := by
  simp only [classEdge, classReading, classAllotment]
  obtain ⟨attributes, classes⟩ := provider.classPhrase name
  cases classes with
  | nil => exact Follows.pure none
  | cons c classes =>
    rw [instanceProperty]
    cases provider.index.ontology.instanceProperty? with
    | none => exact (Follows.available none).stop
    | some property =>
      -- there is a class, hence an alternative, and no variable has been taken yet
      have isA : Edge.anyOf ((c :: classes).map (Edge.isA property.ref)) =
          some (Edge.alternatives ((c :: classes).map (Edge.isA property.ref))) :=
        Edge.anyOf_eq_alternatives (List.cons_ne_nil _ _) (List.forall_mem_map.mpr fun _ _ => rfl)
      refine (Follows.available (some property.ref)).bind_const ?_
      rw [Making.disjunction, isA]
      exact (Follows.available (some _)).bind_const ((follows_attributes attributes).map _)

theorem count_classAllotment (instanceProperty : PropertyRef κ) (name : List Token) :
    (provider.classAllotment instanceProperty name).count =
      (provider.classPhrase name).1.length := by
  rw [classAllotment]
  obtain ⟨attributes, classes⟩ := provider.classPhrase name
  have each (found : TokenMatch (Attribute κ)) : (attributeEdge found).count = 1 := rfl
  rw [Allotment.count_map, Allotment.count_traverse each, Nat.mul_one]

theorem classes_eq_of_classReading {name : List Token} {a : Allotment (ClassEdge κ)}
    (read : provider.classReading name = .ok (some a)) (n : Nat) :
    (a.made n).classes = (provider.classPhrase name).2 := by
  simp only [classReading, classAllotment] at read
  split at read
  · cases read
  · split at read
    · cases read
      rfl
    · cases read

/-- What is left to do once the classes of a phrase are known. -/
theorem follows_related {name : List Token} {c : ClassEdge κ}
    (named : c.classes = (provider.classPhrase name).2) (node : Node κ) :
    Follows (do
        let relations := (provider.index.relationProperties name ++
          c.classes.flatMap provider.index.segmentsOf).eraseDups
        let related ← Making.disjunction (relations.map fun relation => relation.edge node)
        return c.edge.and related)
      ((Plan.ofOption (provider.related? name node)).map c.edge.and) := by
  rw [named]
  exact (Follows.available _).map _

theorem follows_relationshipEdge (name : List Token) (node : Node κ) :
    Follows (provider.relationshipEdge name node) (provider.relationshipPlan name node) := by
  have reading := provider.follows_classEdge name
  rw [relationshipEdge, relationshipPlan]
  rcases read : provider.classReading name with e | _ | a
  · rw [read] at reading
    exact reading.stop
  · rw [read] at reading
    exact reading.bind_const (Follows.available none).stop
  · rw [read] at reading
    -- the classes do not depend on the variables, so neither do the relations
    have rest (n : Nat) :=
      provider.follows_related (provider.classes_eq_of_classReading read n) node
    cases related : provider.related? name node with
    | none =>
      rw [related] at rest
      exact reading.bind_fails fun n => (Follows.available (some (a.made n))).bind_const (rest n)
    | some edge =>
      rw [related] at rest
      exact reading.bind 0 (fun n _ => (a.made n).edge.and edge) fun n =>
        (Follows.available (some (a.made n))).bind_const (rest n)

theorem follows_valueNode (name : List Token) :
    Follows (provider.valueNode name) (provider.valueNodePlan name) := by
  have reading := provider.follows_classEdge name
  rw [valueNode, valueNodePlan]
  rcases read : provider.classReading name with e | _ | a
  · rw [read] at reading
    exact reading.stop
  · rw [read] at reading
    refine reading.bind_const ?_
    rw [labelPlan]
    cases provider.index.ontology.labelProperty? with
    | none => exact (Follows.available none).stop
    | some property => exact (Follows.available (some property)).bind_const (Follows.fresh.map _)
  · rw [read] at reading
    exact reading.bind 1 (fun n m => (Node.var m).and (a.made n).edge) fun n => Follows.fresh.map _

theorem follows_numberNode (number unit : List Token) :
    Follows (numberNode number unit : Making (Node κ)) (numberPlan number unit) := by
  rw [numberNode, numberPlan]
  cases Binary64.read? (String.intercalate " " (number.map Token.headword)) with
  | none => exact Follows.fail _
  | some value => exact Follows.pure _

theorem follows_make (request : Request κ) :
    Follows (provider.make request) (provider.plan request) := by
  cases request with
  | personEdge => exact provider.follows_personEdge.map _
  | namedPropertyEdge name => exact (provider.follows_namedPropertyEdge name).map _
  | inversePropertyEdge name node context =>
    exact (provider.follows_inversePropertyEdge name node context).map _
  | adjectivePropertyEdge name node context =>
    exact (provider.follows_adjectivePropertyEdge name node context).map _
  | comparativePropertyEdge name node context =>
    exact (provider.follows_comparativePropertyEdge name node context).map _
  | valuePropertyEdge name node context =>
    exact (provider.follows_valuePropertyEdge name node context).map _
  | relationshipEdge name node => exact (provider.follows_relationshipEdge name node).map _
  | valueNode name => exact (provider.follows_valueNode name).map _
  | numberNode number unit => exact (follows_numberNode number unit).map _

end Provider

/-! ### Runs -/

/-- A request as it was answered. -/
structure Call (κ : KnowledgeBase) where
  request : Request κ
  before : Supply
  result : Except ProviderError (Fragment κ)
  after : Supply

namespace Provider

/-- Requests one after another, each with the variables that those before it have left. -/
def run (provider : Provider κ) : List (Request κ) → Supply → List (Call κ)
  | [], _ => []
  | request :: requests, s =>
    let (result, s') := Making.outcome (provider.make request) s
    ⟨request, s, result, s'⟩ :: provider.run requests s'

variable (provider : Provider κ)

/-- The call that answers a request as planned. -/
def call (request : Request κ) (s : Supply) : Call κ :=
  ⟨request, s, (provider.plan request).result s.next, ⟨s.next + (provider.plan request).count⟩⟩

theorem run_cons (request : Request κ) (requests : List (Request κ)) (s : Supply) :
    provider.run (request :: requests) s = provider.call request s ::
      provider.run requests (provider.call request s).after := by
  rw [run, provider.follows_make request s]
  rfl

theorem eq_call_of_mem_run {requests : List (Request κ)} {s : Supply} {call : Call κ}
    (member : call ∈ provider.run requests s) :
    ∃ request ∈ requests, ∃ s', call = provider.call request s' := by
  induction requests generalizing s with
  | nil => cases member
  | cons request requests ih =>
    rw [run_cons] at member
    rcases List.mem_cons.mp member with rfl | later
    · exact ⟨request, List.mem_cons_self, s, rfl⟩
    · obtain ⟨other, asked, s', planned⟩ := ih later
      exact ⟨other, List.mem_cons_of_mem request asked, s', planned⟩

end Provider

end PhraseGraph
