import Mathlib.Data.List.Range
import PhraseGraph.Ontology.Sample
import PhraseGraph.Proofs.Fragment.Variables
import PhraseGraph.Proofs.Outcomes
import PhraseGraph.Proofs.Provider.Requests

/-!
# PhraseGraph.Proofs.Provider.Variables

The variables that answers are made of.

The node that comes with a request may be copied into any number of alternatives. The variables
that a request takes are not copied: each of them stands in one place.

## Main statements

`Provider.uses_plan`: an answer has each variable that was taken for it once, and otherwise only
variables of the node that came with the request.
`Provider.run_variables`: no variable is given out twice in a run.
-/

namespace PhraseGraph

variable {κ : KnowledgeBase} {α β γ : Type}

theorem Edge.vars_alternatives (es : List (Edge κ)) :
    (Edge.alternatives es).vars = es.flatMap Edge.vars := by
  match es with
  | [] => exact Edge.vars_disjunction []
  | [e] => exact (List.flatMap_singleton Edge.vars e).symm
  | e :: f :: es => exact Edge.vars_disjunction (e :: f :: es)

/-! ### Use of variables -/

/-- What is made has the allotted variables, each once, and apart from them only given ones. -/
def Allotment.Uses (given : List Nat) (vars : α → List Nat) (a : Allotment α) : Prop :=
  ∀ n, ∃ copied, copied ⊆ given ∧ (vars (a.made n)).Perm (List.range' n a.count ++ copied)

def Plan.Uses (given : List Nat) (vars : α → List Nat) : Plan α → Prop
  | .makes a => a.Uses given vars
  | .fails _ _ => True

namespace Allotment

variable {given : List Nat} {vars : α → List Nat} {vars' : β → List Nat} {vars'' : γ → List Nat}
  {a : Allotment α} {b : Allotment β}

theorem uses_const {x : α} (copied : vars x ⊆ given) : (const x).Uses given vars :=
  fun _ => ⟨vars x, copied, .refl _⟩

theorem uses_fresh : fresh.Uses given (Node.vars (κ := κ)) :=
  fun n => ⟨[], List.nil_subset _, .of_eq (Node.vars_var n)⟩

/-- What is added to all that is made has no other variables than given ones. -/
theorem Uses.map {f : α → β} {copied : List Nat} (uses : a.Uses given vars)
    (sub : copied ⊆ given) (added : ∀ n, vars' (f (a.made n)) = vars (a.made n) ++ copied) :
    (a.map f).Uses given vars' := by
  intro n
  obtain ⟨before, known, perm⟩ := uses n
  refine ⟨before ++ copied, List.append_subset.mpr ⟨known, sub⟩, ?_⟩
  have appended := perm.append_right copied
  rw [List.append_assoc] at appended
  exact (List.Perm.of_eq (added n)).trans appended

theorem Uses.map_eq {f : α → β} (uses : a.Uses given vars)
    (same : ∀ n, vars' (f (a.made n)) = vars (a.made n)) : (a.map f).Uses given vars' :=
  uses.map (List.nil_subset given) fun n => (same n).trans (List.append_nil _).symm

/-- Two things that are put together share no variable that they take. -/
theorem Uses.map₂ {f : α → β → γ} (first : a.Uses given vars) (second : b.Uses given vars')
    (both : ∀ n m, (vars'' (f (a.made n) (b.made m))).Perm (vars (a.made n) ++ vars' (b.made m))) :
    (a.map₂ f b).Uses given vars'' := by
  intro n
  obtain ⟨copied, known, perm⟩ := first n
  obtain ⟨copied', known', perm'⟩ := second (n + a.count)
  refine ⟨copied ++ copied', List.append_subset.mpr ⟨known, known'⟩, ?_⟩
  have ranges : List.range' n a.count ++ List.range' (n + a.count) b.count =
      List.range' n (a.count + b.count) := List.range'_append_1
  refine ((both n _).trans (perm.append perm')).trans ?_
  change List.Perm _ (List.range' n (a.count + b.count) ++ _)
  rw [← ranges, List.append_assoc, List.append_assoc]
  -- what the first part has copied goes behind what the second part has taken
  exact (List.perm_append_comm_assoc _ _ _).append_left _

theorem uses_traverse {f : α → Allotment β} {as : List α}
    (each : ∀ a ∈ as, (f a).Uses given vars') : (traverse f as).Uses given (·.flatMap vars') := by
  induction as with
  | nil => exact uses_const (List.nil_subset _)
  | cons a as ih =>
    obtain ⟨first, later⟩ := List.forall_mem_cons.mp each
    exact first.map₂ (ih later) fun _ _ => .of_eq List.flatMap_cons

theorem uses_compared {node : Node κ} (sub : node.vars ⊆ given) (comparison : Option Comparison) :
    (compared node comparison).Uses given Node.vars := by
  cases comparison with
  | none => exact uses_const sub
  | some comparison =>
    rw [compared]
    refine uses_fresh.map sub fun n => ?_
    simp [fresh]

end Allotment

namespace Plan

variable {given : List Nat} {vars : α → List Nat} {vars' : β → List Nat}

theorem uses_ofOption {o : Option α} (copied : ∀ x, o = some x → vars x ⊆ given) :
    (ofOption o).Uses given vars := by
  cases o with
  | none => trivial
  | some x => exact Allotment.uses_const (copied x rfl)

theorem uses_disjunction {f : α → Allotment (Edge κ)} {as : List α}
    (each : ∀ a ∈ as, (f a).Uses given Edge.vars) : (disjunction f as).Uses given Edge.vars := by
  cases as with
  | nil => trivial
  | cons a as =>
    exact (Allotment.uses_traverse each).map_eq fun n => Edge.vars_alternatives _

theorem Uses.map {plan : Plan α} {f : α → β} (uses : plan.Uses given vars)
    (same : ∀ x, vars' (f x) = vars x) : (plan.map f).Uses given vars' := by
  cases plan with
  | fails lost e => trivial
  | makes a => exact Allotment.Uses.map_eq uses fun n => same (a.made n)

end Plan

/-! ### Requests -/

def Request.given (request : Request κ) : List Nat := request.node?.elim [] Node.vars

theorem DirectedProperty.vars_edge (d : DirectedProperty κ) (node : Node κ) :
    (d.edge node).vars = node.vars := by
  obtain ⟨property, direction⟩ := d
  cases direction with
  | outgoing => exact Edge.vars_outgoing property node
  | incoming => exact Edge.vars_incoming node property

/-- However many relations there are, their edges have the variables of the node. -/
theorem vars_subset_of_anyOf {ds : List (DirectedProperty κ)} {node : Node κ} {e : Edge κ}
    (found : Edge.anyOf (ds.map fun d => d.edge node) = some e) : e.vars ⊆ node.vars := by
  have copies := Edge.vars_anyOf (ds.map fun d => d.edge node)
  rw [found, Option.elim_some, List.flatMap_map] at copies
  intro id member
  rw [copies] at member
  obtain ⟨d, -, member⟩ := List.mem_flatMap.mp member
  rwa [DirectedProperty.vars_edge] at member

namespace Provider

variable (provider : Provider κ)

theorem uses_personPlan (given : List Nat) : provider.personPlan.Uses given Edge.vars := by
  refine Plan.uses_ofOption fun e found => ?_
  obtain ⟨person, -, found⟩ := Option.bind_eq_some_iff.mp found
  obtain ⟨property, -, found⟩ := Option.bind_eq_some_iff.mp found
  cases found
  rw [Edge.vars_isA]
  exact List.nil_subset given

theorem uses_namedPropertyPlan (given : List Nat) (name : List Token) :
    (provider.namedPropertyPlan name).Uses given Edge.vars := by
  refine Plan.uses_disjunction fun property _ => ?_
  exact Allotment.uses_fresh.map_eq fun n => Edge.vars_outgoing property _

theorem uses_inversePropertyPlan (name : List Token) (node : Node κ) (context : Context) :
    (provider.inversePropertyPlan name node context).Uses node.vars Edge.vars := by
  refine Plan.uses_disjunction fun usage _ => ?_
  have uses := Allotment.uses_compared (List.Subset.refl node.vars) usage.comparison
  exact uses.map_eq fun n => Edge.vars_incoming _ usage.property

theorem uses_usagePlan (node : Node κ) (usages : List (PropertyUsage κ)) :
    (usagePlan node usages).Uses node.vars Edge.vars := by
  refine Plan.uses_disjunction fun usage _ => ?_
  have uses := Allotment.uses_compared (List.Subset.refl node.vars) usage.comparison
  exact uses.map_eq fun n => Edge.vars_outgoing usage.property _

theorem uses_reference (node : Node κ) (property : PropertyRef κ) :
    (reference node property).Uses node.vars Node.vars := by
  rw [reference]
  split
  · exact Allotment.uses_const (List.Subset.refl _)
  · exact Allotment.uses_fresh.map (List.Subset.refl _) fun n => Node.vars_incoming _ _ _

theorem uses_comparativePropertyPlan (name : List Token) (node : Node κ) (context : Context) :
    (provider.comparativePropertyPlan name node context).Uses node.vars Edge.vars := by
  refine Plan.uses_disjunction fun usage _ => ?_
  refine Allotment.uses_fresh.map₂ (uses_reference node usage.property) fun n m => .of_eq ?_
  simp [Allotment.fresh]

theorem uses_valuePropertyPlan (name : List Token) (node : Node κ) (context : Context) :
    (provider.valuePropertyPlan name node context).Uses node.vars Edge.vars := by
  rw [valuePropertyPlan]
  split
  · refine Plan.uses_ofOption fun e found => ?_
    obtain ⟨subject, -, found⟩ := Option.bind_eq_some_iff.mp found
    exact vars_subset_of_anyOf found
  · exact uses_usagePlan node _

theorem uses_attributeEdge (given : List Nat) (found : TokenMatch (Attribute κ)) :
    (attributeEdge found).Uses given Edge.vars := by
  refine Allotment.uses_fresh.map_eq fun n => ?_
  cases found.result.order <;> simp

theorem uses_classAllotment (given : List Nat) (instanceProperty : PropertyRef κ)
    (name : List Token) :
    (provider.classAllotment instanceProperty name).Uses given (·.edge.vars) := by
  rw [classAllotment]
  obtain ⟨attributes, classes⟩ := provider.classPhrase name
  have isA : (Edge.alternatives (classes.map (Edge.isA instanceProperty))).vars = [] := by
    rw [Edge.vars_alternatives, List.flatMap_map]
    simp
  have adjectives : (Allotment.traverse attributeEdge attributes).Uses given
      (·.flatMap Edge.vars) := Allotment.uses_traverse fun found _ => uses_attributeEdge given found
  refine adjectives.map_eq fun n => ?_
  have all := Edge.vars_anyOf ((Allotment.traverse attributeEdge attributes).made n)
  rw [← all]
  cases Edge.anyOf ((Allotment.traverse attributeEdge attributes).made n) with
  | none => exact isA
  | some both => rw [Edge.vars_and, isA, List.nil_append, Option.elim_some]

/-- Whatever a phrase that names classes is read as uses only the variables that it takes. -/
theorem uses_of_classReading {name : List Token} {a : Allotment (ClassEdge κ)}
    (read : provider.classReading name = .ok (some a)) (given : List Nat) :
    a.Uses given (·.edge.vars) := by
  rw [classReading] at read
  split at read
  · cases read
  · split at read
    · cases read
      exact provider.uses_classAllotment given _ name
    · cases read

theorem uses_relationshipPlan (name : List Token) (node : Node κ) :
    (provider.relationshipPlan name node).Uses node.vars Edge.vars := by
  rw [relationshipPlan]
  rcases read : provider.classReading name with e | _ | a
  · trivial
  · trivial
  · have uses := provider.uses_of_classReading read node.vars
    cases related : provider.related? name node with
    | none => trivial
    | some edge => exact uses.map (vars_subset_of_anyOf related) fun n => Edge.vars_and _ edge

theorem uses_labelPlan (given : List Nat) (name : List Token) :
    (provider.labelPlan name).Uses given Node.vars := by
  rw [labelPlan]
  split
  · refine Allotment.uses_fresh.map_eq fun n => ?_
    rw [Node.vars_and, Edge.vars_hasLabel, List.append_nil]
  · trivial

theorem uses_valueNodePlan (given : List Nat) (name : List Token) :
    (provider.valueNodePlan name).Uses given Node.vars := by
  rw [valueNodePlan]
  rcases read : provider.classReading name with e | _ | a
  · trivial
  · exact provider.uses_labelPlan given name
  · refine (provider.uses_of_classReading read given).map₂ Allotment.uses_fresh fun n m => ?_
    rw [Node.vars_and]
    exact List.perm_append_comm

theorem uses_numberPlan (given : List Nat) (number unit : List Token) :
    (numberPlan number unit : Plan (Node κ)).Uses given Node.vars := by
  rw [numberPlan]
  split
  · trivial
  · refine Allotment.uses_const ?_
    rw [Node.vars_quantity]
    exact List.nil_subset given

/-- An answer has each variable that was taken for it once, and apart from them only variables of
the given node. -/
theorem uses_plan (request : Request κ) :
    (provider.plan request).Uses request.given Fragment.vars := by
  cases request with
  | personEdge => exact (provider.uses_personPlan _).map fun _ => rfl
  | namedPropertyEdge name => exact (provider.uses_namedPropertyPlan _ name).map fun _ => rfl
  | inversePropertyEdge name node context =>
    exact (provider.uses_inversePropertyPlan name node context).map fun _ => rfl
  | adjectivePropertyEdge name node context => exact (uses_usagePlan node _).map fun _ => rfl
  | comparativePropertyEdge name node context =>
    exact (provider.uses_comparativePropertyPlan name node context).map fun _ => rfl
  | valuePropertyEdge name node context =>
    exact (provider.uses_valuePropertyPlan name node context).map fun _ => rfl
  | relationshipEdge name node => exact (provider.uses_relationshipPlan name node).map fun _ => rfl
  | valueNode name => exact (provider.uses_valueNodePlan _ name).map fun _ => rfl
  | numberNode number unit => exact (uses_numberPlan _ number unit).map fun _ => rfl

end Provider

/-! ### Runs -/

namespace Call

/-- The variables of the node that came with the request had been given out before. -/
def IsGrounded (call : Call κ) : Prop := ∀ id ∈ call.request.given, id < call.before.next

/-- The variables of what was returned, each as often as it occurs. -/
def vars (call : Call κ) : List Nat := call.result.toOption.elim [] Fragment.vars

/-- Those of them that had not been given out before. -/
def taken (call : Call κ) : List Nat := call.vars.filter (call.before.next ≤ ·)

end Call

namespace Provider

variable (provider : Provider κ)

theorem vars_call {request : Request κ} {s : Supply}
    (returned : ∃ f, (provider.call request s).result = .ok f) :
    ∃ copied, copied ⊆ request.given ∧ (provider.call request s).vars.Perm
      (List.range' s.next (provider.plan request).count ++ copied) := by
  obtain ⟨f, returned⟩ := returned
  have uses := provider.uses_plan request
  rw [Call.vars, returned]
  rw [call] at returned
  cases planned : provider.plan request with
  | fails lost e =>
    rw [planned] at returned
    cases returned
  | makes a =>
    rw [planned] at uses returned
    cases returned
    exact uses s.next

/-- What was taken for an answer is what the supply has lost, each variable once. -/
theorem taken_call {request : Request κ} {s : Supply}
    (grounded : (provider.call request s).IsGrounded)
    (returned : ∃ f, (provider.call request s).result = .ok f) :
    (provider.call request s).taken.Perm (List.range' s.next (provider.plan request).count) := by
  obtain ⟨copied, known, perm⟩ := provider.vars_call returned
  have old : copied.filter (s.next ≤ ·) = [] := by
    rw [List.filter_eq_nil_iff]
    intro id member
    have before : id < s.next := grounded id (known member)
    simpa using before
  have new : (List.range' s.next (provider.plan request).count).filter (s.next ≤ ·) =
      List.range' s.next (provider.plan request).count := by
    rw [List.filter_eq_self]
    intro id member
    have bounds := List.mem_range'_1.mp member
    simpa using bounds.1
  have kept := perm.filter (s.next ≤ ·)
  rw [List.filter_append, old, new, List.append_nil] at kept
  exact kept

/-- Nothing that is returned has a variable that is still to be given out. -/
theorem lt_after_of_mem_vars {request : Request κ} {s : Supply}
    (grounded : (provider.call request s).IsGrounded) {id : Nat}
    (member : id ∈ (provider.call request s).vars) : id < (provider.call request s).after.next := by
  have returned : ∃ f, (provider.call request s).result = .ok f := by
    rw [Call.vars] at member
    cases returned : (provider.call request s).result with
    | ok f => exact ⟨f, rfl⟩
    | error e =>
      rw [returned] at member
      cases member
  obtain ⟨copied, known, perm⟩ := provider.vars_call returned
  rcases List.mem_append.mp (perm.mem_iff.mp member) with new | old
  · exact (List.mem_range'_1.mp new).2
  · exact Nat.lt_add_right _ (grounded id (known old))

theorem le_before_of_mem_run {requests : List (Request κ)} {s : Supply} {call : Call κ}
    (member : call ∈ provider.run requests s) : s.next ≤ call.before.next := by
  induction requests generalizing s with
  | nil => cases member
  | cons request requests ih =>
    rw [run_cons] at member
    rcases List.mem_cons.mp member with rfl | later
    · exact Nat.le_refl s.next
    · exact Nat.le_trans (Nat.le_add_right s.next _) (ih later)

/-- Of two calls, the later one starts where the earlier one ended or after it. -/
theorem pairwise_run (requests : List (Request κ)) (s : Supply) :
    (provider.run requests s).Pairwise fun earlier later =>
      earlier.after.next ≤ later.before.next := by
  induction requests generalizing s with
  | nil => exact .nil
  | cons request requests ih =>
    rw [run_cons]
    exact .cons (fun later member => provider.le_before_of_mem_run member) (ih _)

/-- In a run each answer has the variables that the supply has lost for it once each. Whatever it
returned before, it never returns with a variable that is taken later. -/
theorem run_variables (requests : List (Request κ)) (s : Supply) :
    (∀ call ∈ provider.run requests s, call.before.next ≤ call.after.next ∧
      (call.IsGrounded → (∃ f, call.result = .ok f) →
        call.taken.Perm
          (List.range' call.before.next (call.after.next - call.before.next)))) ∧
    (provider.run requests s).Pairwise fun earlier later =>
      earlier.after.next ≤ later.before.next ∧
        (earlier.IsGrounded → earlier.vars.Disjoint later.taken) := by
  constructor
  · intro call member
    obtain ⟨request, -, s', rfl⟩ := provider.eq_call_of_mem_run member
    refine ⟨Nat.le_add_right _ _, fun grounded returned => ?_⟩
    have lost : (provider.call request s').after.next - (provider.call request s').before.next =
        (provider.plan request).count := Nat.add_sub_cancel_left _ _
    rw [lost]
    exact provider.taken_call grounded returned
  · refine (provider.pairwise_run requests s).imp_of_mem fun {earlier later} member _ follows => ?_
    obtain ⟨request, -, s', rfl⟩ := provider.eq_call_of_mem_run member
    refine ⟨follows, fun grounded id returned taken => ?_⟩
    -- what is returned lies below the supply that is left, what is taken later does not
    have before := provider.lt_after_of_mem_vars grounded returned
    have after := of_decide_eq_true (List.mem_filter.mp taken).2
    omega

/-- The oldest woman, and the youngest mother that she is related to. -/
def women : List (Request .numbered) := [
  .valueNode [⟨"oldest", "JJS", "old"⟩, ⟨"woman", "NN", "woman"⟩],
  .relationshipEdge [⟨"youngest", "JJS", "young"⟩, ⟨"mother", "NN", "mother"⟩] (.var 1)]

/-- The second answer mentions the first, and takes a variable that is not in the first. -/
theorem run_variables_women :
    ∃ provider, Provider.ofOntology Sample.ontology {} = .ok provider ∧
      ∃ first second, provider.run women {} = [first, second] ∧
        first.taken.Perm [0, 1] ∧ second.taken.Perm [2] ∧ first.vars.Disjoint second.taken := by
  have computed : (Provider.ofOntology Sample.ontology {}).toOption.map (fun provider =>
      (provider.run women {}).map fun call =>
        (call.request.given, call.before.next, call.after.next, call.result.toOption.isSome)) =
      some [([], 0, 2, true), ([1], 2, 3, true)] := by decide +kernel
  obtain ⟨provider, built, computed⟩ := map_toOption_eq_some.mp computed
  obtain ⟨first, later, ran, start, computed⟩ := List.map_eq_cons_iff.mp computed
  obtain ⟨second, later, rfl, next, computed⟩ := List.map_eq_cons_iff.mp computed
  obtain rfl := List.map_eq_nil_iff.mp computed
  simp only [Prod.mk.injEq] at start next
  have fresh := run_variables provider women {}
  rw [ran] at fresh
  obtain ⟨answers, apart⟩ := fresh
  have first_grounded : first.IsGrounded := by simp [Call.IsGrounded, start]
  have second_grounded : second.IsGrounded := by simp [Call.IsGrounded, next]
  refine ⟨provider, built, first, second, ran, ?_, ?_, ?_⟩
  · have taken := (answers first List.mem_cons_self).2 first_grounded
      (isSome_toOption.mp start.2.2.2)
    rwa [start.2.1, start.2.2.1] at taken
  · have taken := (answers second (List.mem_cons_of_mem first List.mem_cons_self)).2
      second_grounded (isSome_toOption.mp next.2.2.2)
    rwa [next.2.1, next.2.2.1] at taken
  · exact ((List.pairwise_cons.mp apart).1 second List.mem_cons_self).2 first_grounded

end Provider

end PhraseGraph
