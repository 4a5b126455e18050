import Mathlib.Data.List.Basic
import PhraseGraph.Fragment.Basic

/-!
# PhraseGraph.Proofs.Fragment.Traversal

Induction over nodes and edges, and fragments with their labels and properties replaced.

Nodes, filters and edges are made of one another, and edges of lists of edges. What is proved of all
of them is proved by the cases of `Hereditary`.

## Main statements

`Hereditary.nodes`, `Hereditary.edges`: the induction.
`Edge.replace_anyOf`, `Edge.replace_and`, `Node.replace_and`: to replace labels and properties
before or after fragments are put together comes to the same.
-/

namespace PhraseGraph

variable {κ : KnowledgeBase}

/-! ### Induction -/

/-- What holds of nodes and edges if it holds of all that they are made of. -/
structure Hereditary (P : Node κ → Prop) (Q : Edge κ → Prop) : Prop where
  node : ∀ label edge filter order, (∀ e ∈ edge, Q e) → (∀ f ∈ filter, P f.value) →
    P ⟨label, edge, filter, order⟩
  outgoing : ∀ property n, P n → Q (.outgoing property n)
  incoming : ∀ n property, P n → Q (.incoming n property)
  conjunction : ∀ es, (∀ e ∈ es, Q e) → Q (.conjunction es)
  disjunction : ∀ es, (∀ e ∈ es, Q e) → Q (.disjunction es)

namespace Hereditary

variable {P : Node κ → Prop} {Q : Edge κ → Prop}

mutual

theorem nodes (hereditary : Hereditary P Q) : ∀ n, P n
  | ⟨label, edge, filter, order⟩ => by
    refine hereditary.node label edge filter order ?_ ?_
    · cases edge with
      | none => exact nofun
      | some e =>
        rintro _ ⟨⟩
        exact hereditary.edges e
    · cases filter with
      | none => exact nofun
      | some f =>
        obtain ⟨comparison, value⟩ := f
        rintro _ ⟨⟩
        exact hereditary.nodes value

theorem edges (hereditary : Hereditary P Q) : ∀ e, Q e
  | .outgoing property n => hereditary.outgoing property n (hereditary.nodes n)
  | .incoming n property => hereditary.incoming n property (hereditary.nodes n)
  | .conjunction es => hereditary.conjunction es (hereditary.members es)
  | .disjunction es => hereditary.disjunction es (hereditary.members es)

theorem members (hereditary : Hereditary P Q) : ∀ es : List (Edge κ), ∀ e ∈ es, Q e
  | [] => nofun
  | e :: es => List.forall_mem_cons.mpr ⟨hereditary.edges e, hereditary.members es⟩

end

end Hereditary

/-! ### Replacement -/

/-- What takes the place of the labels and properties of a fragment. -/
structure Replacement (κ : KnowledgeBase) where
  label : Label κ → Label κ := id
  property : PropertyRef κ → PropertyRef κ := id

mutual

/-- The node with its labels and properties replaced, also behind edges and in filters. -/
def Node.replace (r : Replacement κ) : Node κ → Node κ
  | ⟨label, edge, filter, order⟩ =>
    { label := r.label label
      edge := match edge with
        | some e => some (Edge.replace r e)
        | none => none
      filter := match filter with
        | some f => some (Filter.replace r f)
        | none => none
      order }

def Filter.replace (r : Replacement κ) : Filter κ → Filter κ
  | ⟨comparison, value⟩ => ⟨comparison, Node.replace r value⟩

def Edge.replace (r : Replacement κ) : Edge κ → Edge κ
  | .outgoing property n => .outgoing (r.property property) (Node.replace r n)
  | .incoming n property => .incoming (Node.replace r n) (r.property property)
  | .conjunction es => .conjunction (Edge.replaceAll r es)
  | .disjunction es => .disjunction (Edge.replaceAll r es)

def Edge.replaceAll (r : Replacement κ) : List (Edge κ) → List (Edge κ)
  | [] => []
  | e :: es => Edge.replace r e :: Edge.replaceAll r es

end

variable (r : Replacement κ)

theorem Node.replace_mk (label : Label κ) (edge : Option (Edge κ)) (filter : Option (Filter κ))
    (order : Option Order) : (⟨label, edge, filter, order⟩ : Node κ).replace r =
      ⟨r.label label, edge.map (Edge.replace r), filter.map (Filter.replace r), order⟩ := by
  cases edge <;> cases filter <;> rw [replace] <;> rfl

@[simp] theorem Filter.replace_mk (comparison : Comparison) (value : Node κ) :
    (⟨comparison, value⟩ : Filter κ).replace r = ⟨comparison, value.replace r⟩ := by
  rw [replace]

namespace Edge

theorem replaceAll_eq_map (es : List (Edge κ)) : replaceAll r es = es.map (replace r) := by
  induction es with
  | nil => rw [replaceAll, List.map_nil]
  | cons e es ih => rw [replaceAll, List.map_cons, ih]

@[simp] theorem replace_outgoing (property : PropertyRef κ) (n : Node κ) :
    (outgoing property n).replace r = .outgoing (r.property property) (n.replace r) := by
  rw [replace]

@[simp] theorem replace_incoming (n : Node κ) (property : PropertyRef κ) :
    (incoming n property).replace r = .incoming (n.replace r) (r.property property) := by
  rw [replace]

@[simp] theorem replace_conjunction (es : List (Edge κ)) :
    (conjunction es).replace r = .conjunction (es.map (replace r)) := by
  rw [replace, replaceAll_eq_map]

@[simp] theorem replace_disjunction (es : List (Edge κ)) :
    (disjunction es).replace r = .disjunction (es.map (replace r)) := by
  rw [replace, replaceAll_eq_map]

theorem conjuncts_replace (e : Edge κ) : (e.replace r).conjuncts = e.conjuncts.map (replace r) := by
  cases e <;> simp [conjuncts]

theorem disjuncts_replace (e : Edge κ) : (e.replace r).disjuncts = e.disjuncts.map (replace r) := by
  cases e <;> simp [disjuncts]

theorem replace_collapse {combine : List (Edge κ) → Edge κ}
    (combined : ∀ es, (combine es).replace r = combine (es.map (replace r))) (es : List (Edge κ)) :
    collapse combine (es.map (replace r)) = (collapse combine es).map (replace r) := by
  match es with
  | [] => rfl
  | [e] => rfl
  | e :: f :: es => exact congrArg some (combined (e :: f :: es)).symm

theorem replace_allOf (es : List (Edge κ)) :
    allOf (es.map (replace r)) = (allOf es).map (replace r) := by
  rw [allOf, allOf, ← replace_collapse r (replace_conjunction r), List.map_flatMap,
    List.flatMap_map]
  simp only [conjuncts_replace]

theorem replace_anyOf (es : List (Edge κ)) :
    anyOf (es.map (replace r)) = (anyOf es).map (replace r) := by
  rw [anyOf, anyOf, ← replace_collapse r (replace_disjunction r), List.map_flatMap,
    List.flatMap_map]
  simp only [disjuncts_replace]

@[simp] theorem replace_and (e f : Edge κ) :
    (e.and f).replace r = (e.replace r).and (f.replace r) := by
  have both := replace_allOf r [e, f]
  rw [List.map_cons, List.map_singleton] at both
  rw [and, and, both]
  cases allOf [e, f] with
  | none => exact replace_conjunction r []
  | some g => rfl

@[simp] theorem replace_or (e f : Edge κ) :
    (e.or f).replace r = (e.replace r).or (f.replace r) := by
  have both := replace_anyOf r [e, f]
  rw [List.map_cons, List.map_singleton] at both
  rw [or, or, both]
  cases anyOf [e, f] with
  | none => exact replace_disjunction r []
  | some g => rfl

end Edge

namespace Node

@[simp] theorem label_replace (n : Node κ) : (n.replace r).label = r.label n.label := by
  obtain ⟨label, edge, filter, order⟩ := n
  rw [replace_mk]

@[simp] theorem replace_and (n : Node κ) (e : Edge κ) :
    (n.and e).replace r = (n.replace r).and (e.replace r) := by
  obtain ⟨label, edge, filter, order⟩ := n
  cases edge <;> simp [and, replace_mk]

@[simp] theorem replace_filtered (n : Node κ) (comparison : Comparison) (value : Node κ) :
    (n.filtered comparison value).replace r =
      (n.replace r).filtered comparison (value.replace r) := by
  obtain ⟨label, edge, filter, order⟩ := n
  simp [filtered, replace_mk]

@[simp] theorem replace_ordered (n : Node κ) (order : Order) :
    (n.ordered order).replace r = (n.replace r).ordered order := by
  obtain ⟨label, edge, filter, order'⟩ := n
  simp [ordered, replace_mk]

end Node

end PhraseGraph
