import Mathlib.Data.List.Basic
import PhraseGraph.Fragment.Basic

/-!
# PhraseGraph.Proofs.Fragment.Variables

The variables that occur in fragments.

A variable is listed once for each place where it occurs, be that a label, a node behind an edge,
or a node that another is compared with. Putting fragments together puts their lists together, so
nothing is lost or made twice when edges are combined without nesting.

## Main statements

`Edge.vars_anyOf`, `Edge.vars_and`: combined edges have the variables of their parts.
`Node.vars_and`: a node with one more edge has its own variables and those of the edge.
-/

namespace PhraseGraph

variable {κ : KnowledgeBase}

def Label.vars : Label κ → List Nat
  | .var id => [id]
  | .item _ => []
  | .text _ => []
  | .quantity _ _ => []

mutual

/-- The variables of a node. Its order mentions none. -/
def Node.vars : Node κ → List Nat
  | ⟨label, edge, filter, _⟩ =>
    label.vars ++
      (match filter with
        | some f => Filter.vars f
        | none => []) ++
      (match edge with
        | some e => Edge.vars e
        | none => [])

def Filter.vars : Filter κ → List Nat
  | ⟨_, value⟩ => Node.vars value

def Edge.vars : Edge κ → List Nat
  | .outgoing _ n => Node.vars n
  | .incoming n _ => Node.vars n
  | .conjunction es => Edge.varsAll es
  | .disjunction es => Edge.varsAll es

def Edge.varsAll : List (Edge κ) → List Nat
  | [] => []
  | e :: es => Edge.vars e ++ Edge.varsAll es

end

def Fragment.vars : Fragment κ → List Nat
  | .node n => n.vars
  | .edge e => e.vars

theorem Node.vars_mk (label : Label κ) (edge : Option (Edge κ)) (filter : Option (Filter κ))
    (order : Option Order) : (⟨label, edge, filter, order⟩ : Node κ).vars =
      label.vars ++ filter.elim [] Filter.vars ++ edge.elim [] Edge.vars := by
  cases filter <;> cases edge <;> rw [vars] <;> rfl

namespace Edge

theorem varsAll_eq (es : List (Edge κ)) : varsAll es = es.flatMap vars := by
  induction es with
  | nil => rw [varsAll, List.flatMap_nil]
  | cons e es ih => rw [varsAll, List.flatMap_cons, ih]

@[simp] theorem vars_outgoing (property : PropertyRef κ) (n : Node κ) :
    (outgoing property n).vars = n.vars := by
  rw [vars]

@[simp] theorem vars_incoming (n : Node κ) (property : PropertyRef κ) :
    (incoming n property).vars = n.vars := by
  rw [vars]

@[simp] theorem vars_conjunction (es : List (Edge κ)) :
    (conjunction es).vars = es.flatMap vars := by
  rw [vars, varsAll_eq]

@[simp] theorem vars_disjunction (es : List (Edge κ)) :
    (disjunction es).vars = es.flatMap vars := by
  rw [vars, varsAll_eq]

@[simp] theorem flatMap_vars_conjuncts (e : Edge κ) :
    e.conjuncts.flatMap vars = e.vars := by
  cases e <;> simp [conjuncts]

@[simp] theorem flatMap_vars_disjuncts (e : Edge κ) :
    e.disjuncts.flatMap vars = e.vars := by
  cases e <;> simp [disjuncts]

/-- Collapsing loses nothing that a combination lists for each of its members. -/
theorem elim_collapse {β : Type} {combine : List (Edge κ) → Edge κ} {listed : Edge κ → List β}
    (combined : ∀ es, listed (combine es) = es.flatMap listed) (es : List (Edge κ)) :
    (collapse combine es).elim [] listed = es.flatMap listed := by
  match es with
  | [] => rfl
  | [e] => exact (List.flatMap_singleton listed e).symm
  | e :: f :: es => exact combined (e :: f :: es)

theorem vars_allOf (es : List (Edge κ)) : (allOf es).elim [] vars = es.flatMap vars := by
  rw [allOf, elim_collapse vars_conjunction, List.flatMap_assoc]
  simp

theorem vars_anyOf (es : List (Edge κ)) : (anyOf es).elim [] vars = es.flatMap vars := by
  rw [anyOf, elim_collapse vars_disjunction, List.flatMap_assoc]
  simp

@[simp] theorem vars_and (e f : Edge κ) : (e.and f).vars = e.vars ++ f.vars := by
  have all := vars_allOf [e, f]
  rw [and]
  cases combined : allOf [e, f] with
  | none =>
    rw [combined] at all
    simpa using all
  | some g =>
    rw [combined] at all
    simpa using all

end Edge

namespace Node

@[simp] theorem vars_var (id : Nat) : (var id : Node κ).vars = [id] := by
  rw [var, vars_mk]
  rfl

@[simp] theorem vars_item (c : ClassRef κ) : (item c).vars = [] := by
  rw [item, vars_mk]
  rfl

@[simp] theorem vars_text (value : String) : (text value : Node κ).vars = [] := by
  rw [text, vars_mk]
  rfl

@[simp] theorem vars_quantity (value : Binary64) (unit : Option String) :
    (quantity value unit : Node κ).vars = [] := by
  rw [quantity, vars_mk]
  rfl

@[simp] theorem vars_and (n : Node κ) (e : Edge κ) :
    (n.and e).vars = n.vars ++ e.vars := by
  obtain ⟨label, edge, filter, order⟩ := n
  rw [and, vars_mk, vars_mk, List.append_assoc, List.append_assoc, List.append_assoc]
  cases edge with
  | none => rfl
  | some present => simp

@[simp] theorem vars_incoming (n source : Node κ) (property : PropertyRef κ) :
    (n.incoming source property).vars = n.vars ++ source.vars := by
  rw [incoming, vars_and, Edge.vars_incoming]

/-- A variable that is compared with a node. -/
@[simp] theorem vars_filtered_var (id : Nat) (comparison : Comparison) (value : Node κ) :
    ((var id).filtered comparison value).vars = id :: value.vars := by
  rw [filtered, var, vars_mk, Option.elim_some, Filter.vars, Label.vars]
  exact List.append_nil _

@[simp] theorem vars_ordered (n : Node κ) (order : Order) :
    (n.ordered order).vars = n.vars := by
  obtain ⟨label, edge, filter, order'⟩ := n
  rw [ordered, vars_mk, vars_mk]

end Node

@[simp] theorem Edge.vars_isA (property : PropertyRef κ) (c : ClassRef κ) :
    (isA property c).vars = [] :=
  (vars_outgoing property _).trans (Node.vars_item c)

@[simp] theorem Edge.vars_hasLabel (property : PropertyRef κ) (text : String) :
    (hasLabel property text).vars = [] :=
  (vars_outgoing property _).trans (Node.vars_text text)

end PhraseGraph
