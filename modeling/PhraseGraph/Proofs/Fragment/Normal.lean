import Mathlib.Data.List.Basic
import PhraseGraph.Fragment.Basic

/-!
# PhraseGraph.Proofs.Fragment.Normal

Fragments without needless combinations.

A fragment is normal if every combination in it, also behind edges and in filters, combines two
edges at least and none of its own kind. There is one normal way to write a combination of
combinations, and it is what the builders of edges come to.

## Main statements

`Edge.isNormal_allOf`, `Edge.isNormal_anyOf`: normal edges are put together to normal edges.
`Node.isNormal_and`: a normal node with one more normal edge is normal.
-/

namespace PhraseGraph

variable {κ : KnowledgeBase}

namespace Edge

def isConjunction : Edge κ → Bool
  | .conjunction _ => true
  | _ => false

def isDisjunction : Edge κ → Bool
  | .disjunction _ => true
  | _ => false

end Edge

mutual

/-- Whether all combinations in the node are normal. -/
def Node.IsNormal : Node κ → Prop
  | ⟨_, edge, filter, _⟩ =>
    (match edge with
      | some e => Edge.IsNormal e
      | none => True) ∧
    (match filter with
      | some f => Filter.IsNormal f
      | none => True)

def Filter.IsNormal : Filter κ → Prop
  | ⟨_, value⟩ => Node.IsNormal value

def Edge.IsNormal : Edge κ → Prop
  | .outgoing _ n => Node.IsNormal n
  | .incoming n _ => Node.IsNormal n
  | .conjunction es =>
    2 ≤ es.length ∧ (∀ e ∈ es, e.isConjunction = false) ∧ Edge.AreNormal es
  | .disjunction es =>
    2 ≤ es.length ∧ (∀ e ∈ es, e.isDisjunction = false) ∧ Edge.AreNormal es

def Edge.AreNormal : List (Edge κ) → Prop
  | [] => True
  | e :: es => Edge.IsNormal e ∧ Edge.AreNormal es

end

def Fragment.IsNormal : Fragment κ → Prop
  | .node n => n.IsNormal
  | .edge e => e.IsNormal

theorem Filter.isNormal_mk {comparison : Comparison} {value : Node κ} :
    (⟨comparison, value⟩ : Filter κ).IsNormal ↔ value.IsNormal := by
  rw [IsNormal]

theorem Node.isNormal_mk {label : Label κ} {edge : Option (Edge κ)} {filter : Option (Filter κ)}
    {order : Option Order} : (⟨label, edge, filter, order⟩ : Node κ).IsNormal ↔
      (∀ e ∈ edge, e.IsNormal) ∧ ∀ f ∈ filter, f.IsNormal := by
  cases edge <;> cases filter <;> simp [IsNormal]

namespace Edge

theorem areNormal_iff {es : List (Edge κ)} : AreNormal es ↔ ∀ e ∈ es, e.IsNormal := by
  induction es with
  | nil => simp [AreNormal]
  | cons e es ih => simp [AreNormal, ih]

@[simp] theorem isNormal_outgoing {property : PropertyRef κ} {n : Node κ} :
    (outgoing property n).IsNormal ↔ n.IsNormal := by
  rw [IsNormal]

@[simp] theorem isNormal_incoming {n : Node κ} {property : PropertyRef κ} :
    (incoming n property).IsNormal ↔ n.IsNormal := by
  rw [IsNormal]

theorem isNormal_conjunction {es : List (Edge κ)} : (conjunction es).IsNormal ↔
    2 ≤ es.length ∧ ∀ e ∈ es, e.isConjunction = false ∧ e.IsNormal := by
  rw [IsNormal, areNormal_iff]
  simp only [forall_and]

theorem isNormal_disjunction {es : List (Edge κ)} : (disjunction es).IsNormal ↔
    2 ≤ es.length ∧ ∀ e ∈ es, e.isDisjunction = false ∧ e.IsNormal := by
  rw [IsNormal, areNormal_iff]
  simp only [forall_and]

/-! ### Combinations -/

/-- The members of a normal edge are normal, and none of them is to be opened again. -/
theorem IsNormal.conjuncts {e : Edge κ} (normal : e.IsNormal) :
    e.conjuncts ≠ [] ∧ ∀ f ∈ e.conjuncts, f.isConjunction = false ∧ f.IsNormal := by
  cases e with
  | conjunction es =>
    obtain ⟨several, members⟩ := isNormal_conjunction.mp normal
    exact ⟨List.ne_nil_of_length_pos (Nat.lt_of_lt_of_le Nat.two_pos several), members⟩
  | _ => exact ⟨List.cons_ne_nil _ _, List.forall_mem_singleton.mpr ⟨rfl, normal⟩⟩

theorem IsNormal.disjuncts {e : Edge κ} (normal : e.IsNormal) :
    e.disjuncts ≠ [] ∧ ∀ f ∈ e.disjuncts, f.isDisjunction = false ∧ f.IsNormal := by
  cases e with
  | disjunction es =>
    obtain ⟨several, members⟩ := isNormal_disjunction.mp normal
    exact ⟨List.ne_nil_of_length_pos (Nat.lt_of_lt_of_le Nat.two_pos several), members⟩
  | _ => exact ⟨List.cons_ne_nil _ _, List.forall_mem_singleton.mpr ⟨rfl, normal⟩⟩

/-- What is combined has several members, or is a single member. -/
theorem isNormal_collapse {combine : List (Edge κ) → Edge κ} {es : List (Edge κ)}
    (normal : ∀ e ∈ es, e.IsNormal) (combined : 2 ≤ es.length → (combine es).IsNormal) :
    ∀ e ∈ collapse combine es, e.IsNormal := by
  match es with
  | [] => exact nofun
  | [e] =>
    rintro _ ⟨⟩
    exact normal e List.mem_cons_self
  | e :: f :: es =>
    rintro _ ⟨⟩
    exact combined (Nat.le_add_left 2 es.length)

theorem isNormal_allOf {es : List (Edge κ)} (normal : ∀ e ∈ es, e.IsNormal) :
    ∀ e ∈ allOf es, e.IsNormal := by
  have members : ∀ f ∈ es.flatMap Edge.conjuncts, f.isConjunction = false ∧ f.IsNormal :=
    List.forall_mem_flatMap.mpr fun e inside => (normal e inside).conjuncts.2
  exact isNormal_collapse (fun f inside => (members f inside).2)
    fun several => isNormal_conjunction.mpr ⟨several, members⟩

theorem isNormal_anyOf {es : List (Edge κ)} (normal : ∀ e ∈ es, e.IsNormal) :
    ∀ e ∈ anyOf es, e.IsNormal := by
  have members : ∀ f ∈ es.flatMap Edge.disjuncts, f.isDisjunction = false ∧ f.IsNormal :=
    List.forall_mem_flatMap.mpr fun e inside => (normal e inside).disjuncts.2
  exact isNormal_collapse (fun f inside => (members f inside).2)
    fun several => isNormal_disjunction.mpr ⟨several, members⟩

theorem collapse_eq_none {combine : List (Edge κ) → Edge κ} {es : List (Edge κ)} :
    collapse combine es = none ↔ es = [] := by
  match es with
  | [] => exact ⟨fun _ => rfl, fun _ => rfl⟩
  | [e] => exact ⟨nofun, nofun⟩
  | e :: f :: es => exact ⟨nofun, nofun⟩

theorem isNormal_and {e f : Edge κ} (first : e.IsNormal) (second : f.IsNormal) :
    (e.and f).IsNormal := by
  have both : ∀ g ∈ [e, f], g.IsNormal := by simp [first, second]
  rw [and]
  cases combined : allOf [e, f] with
  | none =>
    -- there is nothing to combine only if an edge has no members
    rw [allOf, collapse_eq_none, List.flatMap_cons] at combined
    exact absurd (List.append_eq_nil_iff.mp combined).1 first.conjuncts.1
  | some g => exact isNormal_allOf both g combined

theorem isNormal_or {e f : Edge κ} (first : e.IsNormal) (second : f.IsNormal) :
    (e.or f).IsNormal := by
  have both : ∀ g ∈ [e, f], g.IsNormal := by simp [first, second]
  rw [or]
  cases combined : anyOf [e, f] with
  | none =>
    rw [anyOf, collapse_eq_none, List.flatMap_cons] at combined
    exact absurd (List.append_eq_nil_iff.mp combined).1 first.disjuncts.1
  | some g => exact isNormal_anyOf both g combined

end Edge

namespace Node

theorem isNormal_and {n : Node κ} {e : Edge κ} (node : n.IsNormal) (edge : e.IsNormal) :
    (n.and e).IsNormal := by
  obtain ⟨label, present, filter, order⟩ := n
  obtain ⟨inEdge, inFilter⟩ := isNormal_mk.mp node
  refine isNormal_mk.mpr ⟨?_, inFilter⟩
  rintro _ ⟨⟩
  cases present with
  | none => exact edge
  | some f => exact Edge.isNormal_and (inEdge f rfl) edge

theorem isNormal_filtered {n value : Node κ} (node : n.IsNormal) (comparison : Comparison)
    (compared : value.IsNormal) : (n.filtered comparison value).IsNormal := by
  obtain ⟨label, edge, filter, order⟩ := n
  refine isNormal_mk.mpr ⟨(isNormal_mk.mp node).1, ?_⟩
  rintro _ ⟨⟩
  exact Filter.isNormal_mk.mpr compared

theorem isNormal_ordered {n : Node κ} (node : n.IsNormal) (order : Order) :
    (n.ordered order).IsNormal := by
  obtain ⟨label, edge, filter, order'⟩ := n
  exact isNormal_mk.mpr (isNormal_mk.mp node)

/-- A label alone has nothing to combine. -/
theorem isNormal_of_label (label : Label κ) : ({ label } : Node κ).IsNormal :=
  isNormal_mk.mpr ⟨nofun, nofun⟩

end Node

theorem Edge.isNormal_isA (property : PropertyRef κ) (c : ClassRef κ) : (isA property c).IsNormal :=
  isNormal_outgoing.mpr (Node.isNormal_of_label _)

theorem Edge.isNormal_hasLabel (property : PropertyRef κ) (text : String) :
    (hasLabel property text).IsNormal :=
  isNormal_outgoing.mpr (Node.isNormal_of_label _)

end PhraseGraph
