import Mathlib.Data.List.Basic
import PhraseGraph.Fragment.Basic

/-!
# PhraseGraph.Proofs.Fragment.Truth

What combined edges say of the node that owns them.

Whether an outgoing or an incoming edge holds is up to the data that a query is put to. Whether a
combined edge holds is then settled, and no way of combining edges may change it.

## Main statements

`Edge.holds_getD_allOf`, `Edge.holds_getD_anyOf`: edges put together without nesting say what they
say one by one. `Edge.holds_and` and `Edge.holds_or` are the cases of two edges.
-/

namespace PhraseGraph

variable {κ : KnowledgeBase}

/-- Which single edges hold of a node. -/
structure Truth (κ : KnowledgeBase) where
  outgoing : PropertyRef κ → Node κ → Prop
  incoming : Node κ → PropertyRef κ → Prop

namespace Edge

mutual

/-- A conjunction holds if all of its members do, a disjunction if one of them does. -/
def Holds (truth : Truth κ) : Edge κ → Prop
  | .outgoing property n => truth.outgoing property n
  | .incoming n property => truth.incoming n property
  | .conjunction es => AllHold truth es
  | .disjunction es => AnyHolds truth es

def AllHold (truth : Truth κ) : List (Edge κ) → Prop
  | [] => True
  | e :: es => Holds truth e ∧ AllHold truth es

def AnyHolds (truth : Truth κ) : List (Edge κ) → Prop
  | [] => False
  | e :: es => Holds truth e ∨ AnyHolds truth es

end

variable {truth : Truth κ}

theorem allHold_iff {es : List (Edge κ)} : AllHold truth es ↔ ∀ e ∈ es, e.Holds truth := by
  induction es with
  | nil => simp [AllHold]
  | cons e es ih => simp [AllHold, ih]

theorem anyHolds_iff {es : List (Edge κ)} : AnyHolds truth es ↔ ∃ e ∈ es, e.Holds truth := by
  induction es with
  | nil => simp [AnyHolds]
  | cons e es ih => simp [AnyHolds, ih]

@[simp] theorem holds_conjunction {es : List (Edge κ)} :
    (conjunction es).Holds truth ↔ ∀ e ∈ es, e.Holds truth := by
  rw [Holds, allHold_iff]

@[simp] theorem holds_disjunction {es : List (Edge κ)} :
    (disjunction es).Holds truth ↔ ∃ e ∈ es, e.Holds truth := by
  rw [Holds, anyHolds_iff]

@[simp] theorem forall_mem_conjuncts {e : Edge κ} :
    (∀ f ∈ e.conjuncts, f.Holds truth) ↔ e.Holds truth := by
  cases e <;> simp [conjuncts]

@[simp] theorem exists_mem_disjuncts {e : Edge κ} :
    (∃ f ∈ e.disjuncts, f.Holds truth) ↔ e.Holds truth := by
  cases e <;> simp [disjuncts]

/-- A single edge stands for the combination of itself, and no edge for that of none. -/
theorem holds_getD_collapse {combine : List (Edge κ) → Edge κ}
    (single : ∀ e, (combine [e]).Holds truth ↔ e.Holds truth) (es : List (Edge κ)) :
    ((collapse combine es).getD (combine [])).Holds truth ↔ (combine es).Holds truth := by
  match es with
  | [] => exact Iff.rfl
  | [e] => exact (single e).symm
  | e :: f :: es => exact Iff.rfl

/-- All of no edges is the empty conjunction. -/
theorem holds_getD_allOf (es : List (Edge κ)) :
    ((allOf es).getD (.conjunction [])).Holds truth ↔ ∀ e ∈ es, e.Holds truth := by
  rw [allOf, holds_getD_collapse (by simp)]
  simp only [holds_conjunction, List.forall_mem_flatMap, forall_mem_conjuncts]

/-- Any of no edges is the empty disjunction. -/
theorem holds_getD_anyOf (es : List (Edge κ)) :
    ((anyOf es).getD (.disjunction [])).Holds truth ↔ ∃ e ∈ es, e.Holds truth := by
  rw [anyOf, holds_getD_collapse (by simp), holds_disjunction]
  constructor
  · rintro ⟨f, member, holds⟩
    obtain ⟨e, member, inside⟩ := List.mem_flatMap.mp member
    exact ⟨e, member, exists_mem_disjuncts.mp ⟨f, inside, holds⟩⟩
  · rintro ⟨e, member, holds⟩
    obtain ⟨f, inside, holds⟩ := exists_mem_disjuncts.mpr holds
    exact ⟨f, List.mem_flatMap.mpr ⟨e, member, inside⟩, holds⟩

@[simp] theorem holds_and {e f : Edge κ} :
    (e.and f).Holds truth ↔ e.Holds truth ∧ f.Holds truth := by
  rw [and, holds_getD_allOf]
  simp

@[simp] theorem holds_or {e f : Edge κ} :
    (e.or f).Holds truth ↔ e.Holds truth ∨ f.Holds truth := by
  rw [or, holds_getD_anyOf]
  simp

end Edge

end PhraseGraph
