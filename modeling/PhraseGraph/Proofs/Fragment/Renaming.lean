import PhraseGraph.Proofs.Fragment.Traversal
import PhraseGraph.Proofs.Fragment.Variables

/-!
# PhraseGraph.Proofs.Fragment.Renaming

Fragments with other variables.

A shift moves all variables from a first one on by the same distance, and leaves the others where
they are.

## Main statements

`Node.rename_eq_self`, `Fragment.rename_eq_self`: a fragment all of whose variables come before the
first one that is moved stays as it is.
-/

namespace PhraseGraph

variable {κ : KnowledgeBase}

/-- A distance by which the variables are moved from `start` on. -/
structure Shift where
  start : Nat
  distance : Nat

def Shift.apply (σ : Shift) (id : Nat) : Nat := if σ.start ≤ id then id + σ.distance else id

def Label.shift (σ : Shift) : Label κ → Label κ
  | .var id => .var (σ.apply id)
  | .item c => .item c
  | .text value => .text value
  | .quantity value unit => .quantity value unit

/-- Only variables are replaced. -/
def Shift.renaming (σ : Shift) : Replacement κ where
  label := Label.shift σ

def Fragment.rename (σ : Shift) : Fragment κ → Fragment κ
  | .node n => .node (n.replace σ.renaming)
  | .edge e => .edge (e.replace σ.renaming)

variable {σ : Shift}

theorem Shift.apply_of_le {id : Nat} (moved : σ.start ≤ id) : σ.apply id = id + σ.distance :=
  if_pos moved

theorem Label.shift_eq_self {label : Label κ} (before : ∀ id ∈ label.vars, id < σ.start) :
    label.shift σ = label := by
  cases label with
  | var id => exact congrArg Label.var (if_neg (Nat.not_le.mpr (before id List.mem_cons_self)))
  | _ => rfl

theorem Node.rename_var (id : Nat) :
    (Node.var id : Node κ).replace σ.renaming = .var (σ.apply id) := by
  rw [var, replace_mk]
  rfl

@[simp] theorem Node.isQuantity_rename (n : Node κ) :
    (n.replace σ.renaming).isQuantity = n.isQuantity := by
  rw [isQuantity, isQuantity, label_replace]
  cases n.label <;> rfl

theorem Edge.rename_outgoing (property : PropertyRef κ) (n : Node κ) :
    (outgoing property n).replace σ.renaming = .outgoing property (n.replace σ.renaming) :=
  replace_outgoing _ property n

theorem Edge.rename_incoming (n : Node κ) (property : PropertyRef κ) :
    (incoming n property).replace σ.renaming = .incoming (n.replace σ.renaming) property :=
  replace_incoming _ n property

/-- Edges in which nothing is moved stay as they are if each of them does. -/
theorem Edge.map_replace_eq_self {es : List (Edge κ)}
    (each : ∀ e ∈ es, (∀ id ∈ e.vars, id < σ.start) → e.replace σ.renaming = e)
    (before : ∀ id ∈ es.flatMap vars, id < σ.start) : es.map (replace σ.renaming) = es := by
  have same : ∀ e ∈ es, e.replace σ.renaming = e := fun e inside =>
    each e inside fun id member => before id (List.mem_flatMap.mpr ⟨e, inside, member⟩)
  exact (List.map_congr_left same).trans (List.map_id es)

theorem hereditary_rename : Hereditary
    (fun n : Node κ => (∀ id ∈ n.vars, id < σ.start) → n.replace σ.renaming = n)
    (fun e : Edge κ => (∀ id ∈ e.vars, id < σ.start) → e.replace σ.renaming = e) where
  node label edge filter order inEdge inFilter before := by
    rw [Node.vars_mk] at before
    simp only [List.forall_mem_append] at before
    obtain ⟨⟨ofLabel, ofFilter⟩, ofEdge⟩ := before
    have label_eq : σ.renaming.label label = label := Label.shift_eq_self ofLabel
    have edge_eq : edge.map (Edge.replace σ.renaming) = edge := by
      cases edge with
      | none => rfl
      | some e => exact congrArg some (inEdge e rfl ofEdge)
    have filter_eq : filter.map (Filter.replace σ.renaming) = filter := by
      cases filter with
      | none => rfl
      | some f =>
        obtain ⟨comparison, value⟩ := f
        rw [Option.elim_some, Filter.vars] at ofFilter
        rw [Option.map_some, Filter.replace_mk, inFilter _ rfl ofFilter]
    rw [Node.replace_mk, label_eq, edge_eq, filter_eq]
  outgoing property n ih before := by
    rw [Edge.vars_outgoing] at before
    rw [Edge.rename_outgoing, ih before]
  incoming n property ih before := by
    rw [Edge.vars_incoming] at before
    rw [Edge.rename_incoming, ih before]
  conjunction es ih before := by
    rw [Edge.vars_conjunction] at before
    rw [Edge.replace_conjunction, Edge.map_replace_eq_self ih before]
  disjunction es ih before := by
    rw [Edge.vars_disjunction] at before
    rw [Edge.replace_disjunction, Edge.map_replace_eq_self ih before]

theorem Node.rename_eq_self {n : Node κ} (before : ∀ id ∈ n.vars, id < σ.start) :
    n.replace σ.renaming = n :=
  hereditary_rename.nodes n before

theorem Edge.rename_eq_self {e : Edge κ} (before : ∀ id ∈ e.vars, id < σ.start) :
    e.replace σ.renaming = e :=
  hereditary_rename.edges e before

/-- An edge without variables. -/
theorem Edge.rename_of_vars_eq_nil {e : Edge κ} (closed : e.vars = []) :
    e.replace σ.renaming = e :=
  rename_eq_self (by simp [closed])

theorem Fragment.rename_eq_self {f : Fragment κ} (before : ∀ id ∈ f.vars, id < σ.start) :
    f.rename σ = f := by
  cases f with
  | node n => exact congrArg Fragment.node (Node.rename_eq_self before)
  | edge e => exact congrArg Fragment.edge (Edge.rename_eq_self before)

end PhraseGraph
