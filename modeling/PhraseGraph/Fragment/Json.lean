import PhraseGraph.Fragment.Basic
import PhraseGraph.Ontology.Json

/-!
# PhraseGraph.Fragment.Json

Fragments as JSON values. Properties and classes are written by their names, without their
mappings; an edge, filter or order that a node does not have is left out.
-/

namespace PhraseGraph

variable {κ : KnowledgeBase}

def PropertyRef.toJson (p : PropertyRef κ) : Json :=
  .object [("type", .string "property"), ("name", .string p.id)]

def Label.toJson : Label κ → Json
  | .var id => .object [("type", .string "variable"), ("id", .count id)]
  | .item c => .object [("type", .string "item"), ("name", .string c.id)]
  | .text value =>
    .object [("type", .string "value"), ("subtype", .string "string"), ("value", .string value)]
  | .quantity value unit =>
    .object ([("type", .string "value"), ("subtype", .string "number"), ("value", .number value)] ++
      match unit with
      | some unit => [("unit", .string unit)]
      | none => [])

mutual

def Node.toJson : Node κ → Json
  | ⟨label, edge, filter, order⟩ =>
    .object ([("label", label.toJson)] ++
      (match edge with
        | some e => [("edge", Edge.toJson e)]
        | none => []) ++
      (match filter with
        | some f => [("filter", Filter.toJson f)]
        | none => []) ++
      (match order with
        | some order => [("order", order.toJson)]
        | none => []))

def Filter.toJson : Filter κ → Json
  | ⟨comparison, value⟩ =>
    .object [("comparison", comparison.toJson), ("value", Node.toJson value)]

def Edge.toJson : Edge κ → Json
  | .outgoing property node => .object [("outgoing", .array [property.toJson, Node.toJson node])]
  | .incoming node property => .object [("incoming", .array [Node.toJson node, property.toJson])]
  | .conjunction es => .object [("conjunction", .array (Edge.toJsonAll es))]
  | .disjunction es => .object [("disjunction", .array (Edge.toJsonAll es))]

def Edge.toJsonAll : List (Edge κ) → List Json
  | [] => []
  | e :: es => Edge.toJson e :: Edge.toJsonAll es

end

@[simp] theorem Edge.toJsonAll_eq_map (es : List (Edge κ)) :
    Edge.toJsonAll es = es.map Edge.toJson := by
  induction es with
  | nil => rfl
  | cons e es ih => simp [Edge.toJsonAll, ih]

def Fragment.toJson : Fragment κ → Json
  | .node n => n.toJson
  | .edge e => e.toJson

end PhraseGraph
