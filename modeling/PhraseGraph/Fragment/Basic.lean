import PhraseGraph.Numeral.Binary64
import PhraseGraph.Ontology.Basic

/-!
# PhraseGraph.Fragment.Basic

Fragments of graph queries: nodes, and the edges that lead away from them.

Edges are combined without nesting: a conjunction put into a conjunction is opened, and likewise
for disjunctions. A single edge stands for itself, and no edge at all is none.
-/

namespace PhraseGraph

variable {κ : KnowledgeBase}

inductive Label (κ : KnowledgeBase) where
  | var (id : Nat)
  | item (c : ClassRef κ)
  | text (value : String)
  | quantity (value : Binary64) (unit : Option String)

mutual

/-- A node, with what is required of it. -/
structure Node (κ : KnowledgeBase) where
  label : Label κ
  edge : Option (Edge κ) := none
  filter : Option (Filter κ) := none
  /-- The order by which a superlative picks the first. -/
  order : Option Order := none

/-- A comparison of the value of a node with another node. -/
structure Filter (κ : KnowledgeBase) where
  comparison : Comparison
  value : Node κ

/-- What holds of the node that owns the edge. -/
inductive Edge (κ : KnowledgeBase) where
  /-- The property leads from the owner to the node. -/
  | outgoing (property : PropertyRef κ) (node : Node κ)
  /-- The property leads from the node to the owner. -/
  | incoming (node : Node κ) (property : PropertyRef κ)
  | conjunction (edges : List (Edge κ))
  | disjunction (edges : List (Edge κ))

end

namespace Edge

def conjuncts : Edge κ → List (Edge κ)
  | .conjunction es => es
  | e => [e]

def disjuncts : Edge κ → List (Edge κ)
  | .disjunction es => es
  | e => [e]

/-- A combination of edges: none of none, and a single edge as it is. -/
def collapse (combine : List (Edge κ) → Edge κ) : List (Edge κ) → Option (Edge κ)
  | [] => none
  | [e] => some e
  | es => some (combine es)

def allOf (es : List (Edge κ)) : Option (Edge κ) := collapse .conjunction (es.flatMap conjuncts)

def anyOf (es : List (Edge κ)) : Option (Edge κ) := collapse .disjunction (es.flatMap disjuncts)

def and (e f : Edge κ) : Edge κ := (allOf [e, f]).getD (.conjunction [])

def or (e f : Edge κ) : Edge κ := (anyOf [e, f]).getD (.disjunction [])

/-- The owner is an instance of a class. -/
def isA (instanceProperty : PropertyRef κ) (c : ClassRef κ) : Edge κ :=
  .outgoing instanceProperty { label := .item c }

def hasLabel (labelProperty : PropertyRef κ) (text : String) : Edge κ :=
  .outgoing labelProperty { label := .text text }

end Edge

namespace Node

def var (id : Nat) : Node κ := { label := .var id }

def item (c : ClassRef κ) : Node κ := { label := .item c }

def text (value : String) : Node κ := { label := .text value }

def quantity (value : Binary64) (unit : Option String) : Node κ := { label := .quantity value unit }

def isQuantity (n : Node κ) : Bool :=
  match n.label with
  | .quantity _ _ => true
  | _ => false

def and (n : Node κ) (e : Edge κ) : Node κ :=
  { n with edge := some (match n.edge with
    | some present => present.and e
    | none => e) }

def outgoing (n : Node κ) (property : PropertyRef κ) (target : Node κ) : Node κ :=
  n.and (.outgoing property target)

def incoming (n : Node κ) (source : Node κ) (property : PropertyRef κ) : Node κ :=
  n.and (.incoming source property)

/-- The node with its value compared, in place of any comparison before. -/
def filtered (n : Node κ) (comparison : Comparison) (value : Node κ) : Node κ :=
  { n with filter := some { comparison, value } }

/-- The node with an order, in place of any order before. -/
def ordered (n : Node κ) (order : Order) : Node κ := { n with order := some order }

end Node

/-! ### Sameness -/

/-- Sameness of labels. Numbers are compared as values. -/
def Label.same : Label κ → Label κ → Bool
  | .var i, .var j => i == j
  | .item c, .item d => c == d
  | .text s, .text t => s == t
  | .quantity x unit, .quantity y unit' => x.same y && unit == unit'
  | _, _ => false

mutual

/-- Sameness of nodes: the same shape with the same labels, mappings included. -/
def Node.same : Node κ → Node κ → Bool
  | ⟨label, edge, filter, order⟩, ⟨label', edge', filter', order'⟩ =>
    label.same label' &&
      (match edge, edge' with
        | none, none => true
        | some e, some e' => Edge.same e e'
        | _, _ => false) &&
      (match filter, filter' with
        | none, none => true
        | some f, some f' => Filter.same f f'
        | _, _ => false) &&
      order == order'

def Filter.same : Filter κ → Filter κ → Bool
  | ⟨comparison, value⟩, ⟨comparison', value'⟩ => comparison == comparison' && Node.same value value'

def Edge.same : Edge κ → Edge κ → Bool
  | .outgoing p n, .outgoing q m => p == q && Node.same n m
  | .incoming n p, .incoming m q => p == q && Node.same n m
  | .conjunction es, .conjunction fs => Edge.sameAll es fs
  | .disjunction es, .disjunction fs => Edge.sameAll es fs
  | _, _ => false

def Edge.sameAll : List (Edge κ) → List (Edge κ) → Bool
  | [], [] => true
  | e :: es, f :: fs => Edge.same e f && Edge.sameAll es fs
  | _, _ => false

end

instance : BEq (Node κ) := ⟨Node.same⟩

instance : BEq (Edge κ) := ⟨Edge.same⟩

inductive Fragment (κ : KnowledgeBase) where
  | node (n : Node κ)
  | edge (e : Edge κ)

/-- Sameness of fragments. A node is never an edge. -/
def Fragment.same : Fragment κ → Fragment κ → Bool
  | .node n, .node m => n == m
  | .edge e, .edge f => e == f
  | _, _ => false

instance : BEq (Fragment κ) := ⟨Fragment.same⟩

end PhraseGraph
