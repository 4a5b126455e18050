import PhraseGraph.Fragment.Json
import PhraseGraph.Proofs.Fragment.Traversal
import PhraseGraph.Proofs.Json.Sameness

/-!
# PhraseGraph.Proofs.Fragment.Encoding

What a reader of the JSON value of a fragment can tell of the fragment.

Classes and properties are written by their names alone. Everything else stands in the value: which
kind of label a node has, which edges lead where, how they are combined, and whether there is an
edge, a filter or an order at all.

## Main statements

`Fragment.same_toJson_iff`: the values of two fragments are the same if the fragments are the same
up to what classes and properties are mapped to.
-/

namespace PhraseGraph

variable {κ : KnowledgeBase}

/-! ### Fragments without mappings -/

def PropertyRef.unmapped (p : PropertyRef κ) : PropertyRef κ := ⟨p.id, none⟩

def ClassRef.unmapped (c : ClassRef κ) : ClassRef κ := ⟨c.id, none⟩

def Label.unmapped : Label κ → Label κ
  | .item c => .item c.unmapped
  | label => label

def Replacement.unmapping : Replacement κ := ⟨Label.unmapped, PropertyRef.unmapped⟩

/-- The node without what its classes and properties are mapped to. -/
def Node.unmapped (n : Node κ) : Node κ := n.replace .unmapping

def Filter.unmapped (f : Filter κ) : Filter κ := f.replace .unmapping

def Edge.unmapped (e : Edge κ) : Edge κ := e.replace .unmapping

theorem Node.unmapped_mk (label : Label κ) (edge : Option (Edge κ)) (filter : Option (Filter κ))
    (order : Option Order) : (⟨label, edge, filter, order⟩ : Node κ).unmapped =
      ⟨label.unmapped, edge.map Edge.unmapped, filter.map Filter.unmapped, order⟩ :=
  replace_mk .unmapping label edge filter order

theorem Filter.unmapped_mk (comparison : Comparison) (value : Node κ) :
    (⟨comparison, value⟩ : Filter κ).unmapped = ⟨comparison, value.unmapped⟩ :=
  replace_mk .unmapping comparison value

namespace Edge

@[simp] theorem unmapped_outgoing (property : PropertyRef κ) (n : Node κ) :
    (outgoing property n).unmapped = .outgoing property.unmapped n.unmapped :=
  replace_outgoing .unmapping property n

@[simp] theorem unmapped_incoming (n : Node κ) (property : PropertyRef κ) :
    (incoming n property).unmapped = .incoming n.unmapped property.unmapped :=
  replace_incoming .unmapping n property

@[simp] theorem unmapped_conjunction (es : List (Edge κ)) :
    (conjunction es).unmapped = .conjunction (es.map unmapped) :=
  replace_conjunction .unmapping es

@[simp] theorem unmapped_disjunction (es : List (Edge κ)) :
    (disjunction es).unmapped = .disjunction (es.map unmapped) :=
  replace_disjunction .unmapping es

end Edge

/-! ### Finite numbers -/

def Label.isFinite : Label κ → Bool
  | .quantity value _ => value.isFinite
  | _ => true

mutual

/-- Whether all numbers in the node are finite. -/
def Node.isFinite : Node κ → Bool
  | ⟨label, edge, filter, _⟩ =>
    label.isFinite &&
      (match edge with
        | some e => Edge.isFinite e
        | none => true) &&
      (match filter with
        | some f => Filter.isFinite f
        | none => true)

def Filter.isFinite : Filter κ → Bool
  | ⟨_, value⟩ => Node.isFinite value

def Edge.isFinite : Edge κ → Bool
  | .outgoing _ n => Node.isFinite n
  | .incoming n _ => Node.isFinite n
  | .conjunction es => Edge.areFinite es
  | .disjunction es => Edge.areFinite es

def Edge.areFinite : List (Edge κ) → Bool
  | [] => true
  | e :: es => Edge.isFinite e && Edge.areFinite es

end

theorem Filter.isFinite_eq (f : Filter κ) : f.isFinite = f.value.isFinite := by
  cases f
  rw [isFinite]

theorem Node.isFinite_mk {label : Label κ} {edge : Option (Edge κ)} {filter : Option (Filter κ)}
    {order : Option Order} : (⟨label, edge, filter, order⟩ : Node κ).isFinite = true ↔
      label.isFinite = true ∧ (∀ e ∈ edge, e.isFinite = true) ∧
        ∀ f ∈ filter, f.value.isFinite = true := by
  cases edge <;> cases filter <;> simp [isFinite, Filter.isFinite_eq, and_assoc]

theorem Edge.areFinite_iff {es : List (Edge κ)} :
    areFinite es = true ↔ ∀ e ∈ es, e.isFinite = true := by
  induction es with
  | nil => simp [areFinite]
  | cons e es ih => simp [areFinite, ih]

/-! ### Sameness, part by part -/

section Parts

variable {α β γ δ γ' δ' : Type} {r : γ → δ → Prop} {s : γ' → δ' → Prop}
  {f : α → γ} {g : β → δ} {f' : α → γ'} {g' : β → δ'}

theorem rel_map_congr {a : Option α} {b : Option β}
    (each : ∀ x ∈ a, ∀ y ∈ b, r (f x) (g y) ↔ s (f' x) (g' y)) :
    Option.Rel r (a.map f) (b.map g) ↔ Option.Rel s (a.map f') (b.map g') := by
  cases a with
  | none => cases b <;> simp
  | some x =>
    cases b with
    | none => simp
    | some y => simpa using each x rfl y rfl

theorem forall₂_map_congr {as : List α} {bs : List β}
    (each : ∀ x ∈ as, ∀ y ∈ bs, r (f x) (g y) ↔ s (f' x) (g' y)) :
    List.Forall₂ r (as.map f) (bs.map g) ↔ List.Forall₂ s (as.map f') (bs.map g') := by
  induction as generalizing bs with
  | nil => cases bs <;> simp
  | cons a as ih =>
    cases bs with
    | nil => simp
    | cons b bs =>
      have first := each a List.mem_cons_self b List.mem_cons_self
      have rest := ih fun x inside y inside' =>
        each x (List.mem_cons_of_mem a inside) y (List.mem_cons_of_mem b inside')
      simp only [List.map_cons, List.forall₂_cons, first, rest]

end Parts

theorem Node.same_mk {label label' : Label κ} {edge edge' : Option (Edge κ)}
    {filter filter' : Option (Filter κ)} {order order' : Option Order} :
    (⟨label, edge, filter, order⟩ : Node κ).same ⟨label', edge', filter', order'⟩ = true ↔
      label.same label' = true ∧ Option.Rel (fun e f => e.same f = true) edge edge' ∧
        Option.Rel (fun f g => f.same g = true) filter filter' ∧ order = order' := by
  cases edge <;> cases edge' <;> cases filter <;> cases filter' <;> simp [same, and_assoc]

theorem Edge.sameAll_iff {es fs : List (Edge κ)} :
    sameAll es fs = true ↔ List.Forall₂ (fun e f => e.same f = true) es fs := by
  induction es generalizing fs with
  | nil => cases fs <;> simp [sameAll]
  | cons e es ih => cases fs <;> simp [sameAll, ih]

/-! ### Values, part by part -/

def Label.member? (label : Label κ) (key : String) : Option Json :=
  match label with
  | .var id => [("type", Json.string "variable"), ("id", .count id)].lookup key
  | .item c => [("type", Json.string "item"), ("name", .string c.id)].lookup key
  | .text value =>
    [("type", Json.string "value"), ("subtype", .string "string"), ("value", .string value)].lookup
      key
  | .quantity value unit =>
    if key = "unit" then unit.map .string
    else
      [("type", Json.string "value"), ("subtype", .string "number"),
        ("value", .number value)].lookup key

theorem Label.toJson_eq (label : Label κ) :
    label.toJson = .ofMembers ["type", "subtype", "id", "name", "value", "unit"] label.member? := by
  cases label with
  | quantity value unit => cases unit <;> rfl
  | var id => rfl
  | item c => rfl
  | text value => rfl

theorem Label.same_toJson {label : Label κ} (finite : label.isFinite = true) (label' : Label κ) :
    Json.same label.toJson label'.toJson = true ↔ label.unmapped.same label'.unmapped = true := by
  rw [toJson_eq, toJson_eq, Json.same_ofMembers]
  cases label with
  | item c => cases label' <;> simp [member?, List.lookup_cons, unmapped, same, ClassRef.unmapped]
  | quantity value unit =>
    cases label' with
    | quantity value' unit' =>
      -- without a unit there is no such member, which is not the same as an empty unit
      have units : Json.SameOptional (unit.map .string) (unit'.map .string) ↔ unit = unit' := by
        cases unit <;> cases unit' <;> simp
      simp [member?, List.lookup_cons, unmapped, same, Json.same_number finite, units]
    | _ => simp [member?, List.lookup_cons, unmapped, same]
  | _ => cases label' <;> simp [member?, List.lookup_cons, unmapped, same]

def Node.member? (n : Node κ) : String → Option Json
  | "label" => some n.label.toJson
  | "edge" => n.edge.map Edge.toJson
  | "filter" => n.filter.map Filter.toJson
  | "order" => n.order.map Order.toJson
  | _ => none

theorem Node.toJson_eq (n : Node κ) :
    n.toJson = .ofMembers ["label", "edge", "filter", "order"] n.member? := by
  obtain ⟨label, edge, filter, order⟩ := n
  cases edge <;> cases filter <;> cases order <;> rw [toJson] <;> rfl

theorem Order.same_toJson {order order' : Order} :
    Json.same order.toJson order'.toJson = true ↔ order = order' := by
  cases order <;> cases order' <;> decide

theorem Comparison.same_toJson {comparison comparison' : Comparison} :
    Json.same comparison.toJson comparison'.toJson = true ↔ comparison = comparison' := by
  cases comparison <;> cases comparison' <;> decide

theorem PropertyRef.same_toJson {p q : PropertyRef κ} :
    Json.same p.toJson q.toJson = true ↔ p.unmapped = q.unmapped := by
  simp [toJson, unmapped, Json.same_object, List.lookup_cons]

/-! ### What is told by a value -/

/-- Nothing else has the same value, up to mappings. -/
def Node.IsTold (n : Node κ) : Prop :=
  ∀ m : Node κ, Json.same n.toJson m.toJson = true ↔ n.unmapped.same m.unmapped = true

def Filter.IsTold (f : Filter κ) : Prop :=
  ∀ g : Filter κ, Json.same f.toJson g.toJson = true ↔ f.unmapped.same g.unmapped = true

def Edge.IsTold (e : Edge κ) : Prop :=
  ∀ f : Edge κ, Json.same e.toJson f.toJson = true ↔ e.unmapped.same f.unmapped = true

theorem Filter.isTold_of_value {f : Filter κ} (value : f.value.IsTold) : f.IsTold := by
  intro g
  obtain ⟨comparison, n⟩ := f
  obtain ⟨comparison', m⟩ := g
  rw [unmapped_mk, unmapped_mk, same, Bool.and_eq_true, ← value m]
  simp [toJson, Json.same_object, List.lookup_cons, Comparison.same_toJson]

theorem Node.isTold_mk {label : Label κ} {edge : Option (Edge κ)} {filter : Option (Filter κ)}
    {order : Option Order} (finite : label.isFinite = true) (inEdge : ∀ e ∈ edge, e.IsTold)
    (inFilter : ∀ f ∈ filter, f.IsTold) : (⟨label, edge, filter, order⟩ : Node κ).IsTold := by
  rintro ⟨label', edge', filter', order'⟩
  have labels := Label.same_toJson finite label'
  have edges : Json.SameOptional (edge.map Edge.toJson) (edge'.map Edge.toJson) ↔
      Option.Rel (fun e f => e.same f = true) (edge.map Edge.unmapped) (edge'.map Edge.unmapped) :=
    rel_map_congr fun e inside f _ => inEdge e inside f
  have filters : Json.SameOptional (filter.map Filter.toJson) (filter'.map Filter.toJson) ↔
      Option.Rel (fun f g => f.same g = true) (filter.map Filter.unmapped)
        (filter'.map Filter.unmapped) :=
    rel_map_congr fun f inside g _ => inFilter f inside g
  have orders : Json.SameOptional (order.map Order.toJson) (order'.map Order.toJson) ↔
      order = order' := by
    cases order <;> cases order' <;> simp [Order.same_toJson]
  rw [toJson_eq, toJson_eq, Json.same_ofMembers, unmapped_mk, unmapped_mk, same_mk]
  simp [member?, labels, edges, filters, orders]

namespace Edge

theorem isTold_outgoing {n : Node κ} (node : n.IsTold) (property : PropertyRef κ) :
    (outgoing property n).IsTold := by
  intro f
  cases f with
  | outgoing property' m =>
    simp [toJson, Json.same_singleton, Json.same_array, PropertyRef.same_toJson, same, node m]
  | _ => simp [toJson, Json.same_singleton, same]

theorem isTold_incoming {n : Node κ} (node : n.IsTold) (property : PropertyRef κ) :
    (incoming n property).IsTold := by
  intro f
  cases f with
  | incoming m property' =>
    simp [toJson, Json.same_singleton, Json.same_array, PropertyRef.same_toJson, same, node m,
      and_comm]
  | _ => simp [toJson, Json.same_singleton, same]

theorem same_members {es fs : List (Edge κ)} (members : ∀ e ∈ es, e.IsTold) :
    Json.same (.array (toJsonAll es)) (.array (toJsonAll fs)) = true ↔
      sameAll (es.map unmapped) (fs.map unmapped) = true := by
  rw [toJsonAll_eq_map, toJsonAll_eq_map, Json.same_array, sameAll_iff]
  exact forall₂_map_congr fun e inside f _ => members e inside f

theorem isTold_conjunction {es : List (Edge κ)} (members : ∀ e ∈ es, e.IsTold) :
    (conjunction es).IsTold := by
  intro f
  cases f with
  | conjunction fs =>
    rw [toJson, toJson, Json.same_singleton, same_members members, unmapped_conjunction,
      unmapped_conjunction, same]
    exact and_iff_right rfl
  | _ => simp [toJson, Json.same_singleton, same]

theorem isTold_disjunction {es : List (Edge κ)} (members : ∀ e ∈ es, e.IsTold) :
    (disjunction es).IsTold := by
  intro f
  cases f with
  | disjunction fs =>
    rw [toJson, toJson, Json.same_singleton, same_members members, unmapped_disjunction,
      unmapped_disjunction, same]
    exact and_iff_right rfl
  | _ => simp [toJson, Json.same_singleton, same]

end Edge

/-- Whatever has finite numbers only is told by its value. -/
theorem hereditary_isTold : Hereditary (fun n : Node κ => n.isFinite = true → n.IsTold)
    (fun e : Edge κ => e.isFinite = true → e.IsTold) where
  node label edge filter order inEdge inFilter finite := by
    obtain ⟨labelFinite, edgeFinite, filterFinite⟩ := Node.isFinite_mk.mp finite
    exact Node.isTold_mk labelFinite (fun e inside => inEdge e inside (edgeFinite e inside))
      fun f inside => Filter.isTold_of_value (inFilter f inside (filterFinite f inside))
  outgoing property n node finite := by
    rw [Edge.isFinite] at finite
    exact Edge.isTold_outgoing (node finite) property
  incoming n property node finite := by
    rw [Edge.isFinite] at finite
    exact Edge.isTold_incoming (node finite) property
  conjunction es members finite := by
    rw [Edge.isFinite, Edge.areFinite_iff] at finite
    exact Edge.isTold_conjunction fun e inside => members e inside (finite e inside)
  disjunction es members finite := by
    rw [Edge.isFinite, Edge.areFinite_iff] at finite
    exact Edge.isTold_disjunction fun e inside => members e inside (finite e inside)

theorem Edge.exists_toJson (e : Edge κ) :
    ∃ key v, e.toJson = .object [(key, v)] ∧ key ≠ "label" := by
  cases e <;> rw [toJson] <;> exact ⟨_, _, rfl, by decide⟩

/-- A node has a label, and no edge has one. -/
theorem Json.same_node_edge (n : Node κ) (e : Edge κ) : Json.same n.toJson e.toJson = false := by
  rw [Bool.eq_false_iff]
  intro same
  obtain ⟨key, v, value, other⟩ := e.exists_toJson
  rw [Node.toJson_eq, Json.ofMembers, value, Json.same_object] at same
  obtain ⟨w, stands, -⟩ := same.1 ("label", n.label.toJson)
    (Json.mem_members.mpr ⟨List.mem_cons_self, rfl⟩)
  simp [List.lookup_cons, beq_eq_false_iff_ne.mpr other.symm] at stands

/-- Two nodes with finite numbers only have the same value if they are the same up to mappings, and
so have two edges. The value of a node is never that of an edge. -/
theorem Fragment.same_toJson_iff :
    (∀ n m : Node κ, n.isFinite = true → m.isFinite = true →
      (Json.same n.toJson m.toJson = true ↔ (n.unmapped == m.unmapped) = true)) ∧
    (∀ e f : Edge κ, e.isFinite = true → f.isFinite = true →
      (Json.same e.toJson f.toJson = true ↔ (e.unmapped == f.unmapped) = true)) ∧
    ∀ (n : Node κ) (e : Edge κ), Json.same n.toJson e.toJson = false :=
  ⟨fun n m finite _ => hereditary_isTold.nodes n finite m,
    fun e f finite _ => hereditary_isTold.edges e finite f, Json.same_node_edge⟩

/-- Someone who was born after 1950, the oldest first. -/
def Node.bornAfter (mapping : Option Nat) : Node .numbered :=
  { label := .var 0
    edge := some (.conjunction [
      .outgoing ⟨"isA", mapping⟩ (.item ⟨"Person", mapping⟩),
      .incoming (.text "Obama") ⟨"hasChild", mapping⟩])
    filter := some ⟨.greaterThan, .quantity (.ofRatio false 1950 1) (some "year")⟩
    order := some .descending }

theorem Fragment.same_toJson_iff_bornAfter :
    (Node.bornAfter (some 31)).isFinite = true ∧ (Node.bornAfter none).isFinite = true ∧
      Json.same (Node.bornAfter (some 31)).toJson (Node.bornAfter none).toJson = true := by
  have finite (mapping : Option Nat) : (Node.bornAfter mapping).isFinite = true := by rfl
  have unmapped : ((Node.bornAfter (some 31)).unmapped == (Node.bornAfter none).unmapped) =
      true := by decide +kernel
  exact ⟨finite _, finite _, (same_toJson_iff.1 _ _ (finite _) (finite _)).mpr unmapped⟩

/-- Numbers that are not finite are not told apart. -/
example : Json.same (Node.quantity .notANumber none : Node .numbered).toJson
    (Node.quantity (.infinite true) none : Node .numbered).toJson = true := by decide

end PhraseGraph
