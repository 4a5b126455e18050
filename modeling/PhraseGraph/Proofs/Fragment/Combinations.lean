import Mathlib.Data.List.Induction
import PhraseGraph.Proofs.Fragment.Normal
import PhraseGraph.Proofs.Fragment.Truth
import PhraseGraph.Proofs.Fragment.Variables
import PhraseGraph.Proofs.Grouping

/-!
# PhraseGraph.Proofs.Fragment.Combinations

Laws of combining edges.

To combine edges, those that are combinations of the same kind are taken apart, and their members
are put together. That is done once, not over and over: the members of members are left alone. So
it depends on the form of edges whether combining them in another order comes to the same edge,
while what the edges say and the single edges that they consist of never change.

## Main statements

`Edge.combined_laws`: meaning, single edges, associativity and identity, and edges that are added to
a node one by one.
-/

namespace PhraseGraph

variable {κ : KnowledgeBase}

/-! ### Single edges -/

namespace Edge

mutual

/-- The outgoing and incoming edges that are combined, in order. -/
def atoms : Edge κ → List (Edge κ)
  | .outgoing property n => [.outgoing property n]
  | .incoming n property => [.incoming n property]
  | .conjunction es => atomsAll es
  | .disjunction es => atomsAll es

def atomsAll : List (Edge κ) → List (Edge κ)
  | [] => []
  | e :: es => atoms e ++ atomsAll es

end

theorem atomsAll_eq (es : List (Edge κ)) : atomsAll es = es.flatMap atoms := by
  induction es with
  | nil => rw [atomsAll, List.flatMap_nil]
  | cons e es ih => rw [atomsAll, List.flatMap_cons, ih]

@[simp] theorem atoms_conjunction (es : List (Edge κ)) :
    (conjunction es).atoms = es.flatMap atoms := by
  rw [atoms, atomsAll_eq]

@[simp] theorem atoms_disjunction (es : List (Edge κ)) :
    (disjunction es).atoms = es.flatMap atoms := by
  rw [atoms, atomsAll_eq]

end Edge

/-! ### Connectives -/

/-- The two ways to combine edges. -/
inductive Connective where
  | all
  | any

namespace Connective

def combine : Connective → List (Edge κ) → Edge κ
  | .all => .conjunction
  | .any => .disjunction

/-- What an edge is taken apart into. -/
def members : Connective → Edge κ → List (Edge κ)
  | .all => Edge.conjuncts
  | .any => Edge.disjuncts

variable {c : Connective} {e f g : Edge κ} {es : List (Edge κ)}

/-- Edges put together: `Edge.allOf` and `Edge.anyOf`. -/
def combined (c : Connective) (es : List (Edge κ)) : Option (Edge κ) :=
  Edge.collapse c.combine (es.flatMap c.members)

/-- Two edges put together: `Edge.and` and `Edge.or`. -/
def joined (c : Connective) (e f : Edge κ) : Edge κ := (c.combined [e, f]).getD (c.combine [])

@[simp] theorem members_combine (c : Connective) (es : List (Edge κ)) :
    c.members (c.combine es) = es := by
  cases c <;> rfl

theorem members_of_ne (other : ∀ es, e ≠ c.combine es) : c.members e = [e] := by
  cases c with
  | all =>
    cases e with
    | conjunction es => exact absurd rfl (other es)
    | _ => rfl
  | any =>
    cases e with
    | disjunction es => exact absurd rfl (other es)
    | _ => rfl

theorem members_eq_nil : c.members e = [] ↔ e = c.combine [] := by
  refine ⟨fun none => ?_, fun same => same ▸ members_combine c []⟩
  by_cases combination : ∃ es, e = c.combine es
  · obtain ⟨es, rfl⟩ := combination
    rw [members_combine] at none
    rw [none]
  · rw [members_of_ne (not_exists.mp combination)] at none
    cases none

/-- Edges with their combinations of one kind as groups. -/
def grouping (c : Connective) : Grouping (Edge κ) :=
  ⟨c.combine, c.members, c.members_combine, members_of_ne⟩

theorem atoms_combine (c : Connective) (es : List (Edge κ)) :
    (c.combine es).atoms = es.flatMap Edge.atoms := by
  cases c with
  | all => exact Edge.atoms_conjunction es
  | any => exact Edge.atoms_disjunction es

theorem flatMap_atoms_members (c : Connective) (e : Edge κ) :
    (c.members e).flatMap Edge.atoms = e.atoms := by
  by_cases combination : ∃ es, e = c.combine es
  · obtain ⟨es, rfl⟩ := combination
    rw [members_combine, atoms_combine]
  · rw [members_of_ne (not_exists.mp combination), List.flatMap_singleton]

/-- To combine edges neither adds single edges nor drops any, and it keeps their order. -/
theorem atoms_combined (c : Connective) (es : List (Edge κ)) :
    (c.combined es).elim [] Edge.atoms = es.flatMap Edge.atoms := by
  rw [combined, Edge.elim_collapse (atoms_combine c), List.flatMap_assoc]
  simp only [flatMap_atoms_members]

/-! ### Flat edges -/

/-- If the edge is a combination of this kind, then it does not combine a single edge, and none of
its members is a combination of this kind. -/
def IsFlat (c : Connective) (e : Edge κ) : Prop :=
  ∀ es, e = c.combine es → es.length ≠ 1 ∧ ∀ f ∈ es, ∀ gs, f ≠ c.combine gs

theorem isFlat_combine : c.IsFlat (c.combine es) ↔
    es.length ≠ 1 ∧ ∀ f ∈ es, ∀ gs, f ≠ c.combine gs :=
  Grouping.isFlat_group (g := c.grouping)

/-- The empty combination stands for edges put together that are none. -/
theorem getD_collapse (c : Connective) (es : List (Edge κ)) :
    (Edge.collapse c.combine es).getD (c.combine []) = c.grouping.close es := by
  match es with
  | [] => rfl
  | [e] => rfl
  | e :: f :: es => rfl

theorem getD_combined (c : Connective) (es : List (Edge κ)) :
    (c.combined es).getD (c.combine []) = c.grouping.gather es :=
  c.getD_collapse (es.flatMap c.members)

theorem joined_eq (c : Connective) (e f : Edge κ) : c.joined e f = c.grouping.join e f :=
  c.getD_combined [e, f]

theorem joined_assoc (first : c.IsFlat e) (second : c.IsFlat f) (third : c.IsFlat g) :
    c.joined (c.joined e f) g = c.joined e (c.joined f g) := by
  simp only [joined_eq]
  exact Grouping.join_assoc first second third

theorem joined_empty_left (flat : c.IsFlat e) : c.joined (c.combine []) e = e := by
  rw [joined_eq]
  exact Grouping.join_empty_left flat

theorem joined_empty_right (flat : c.IsFlat e) : c.joined e (c.combine []) = e := by
  rw [joined_eq]
  exact Grouping.join_empty_right flat

/-- One more edge put together with those that are put together already. -/
theorem some_joined_combined (before : ∀ e ∈ es, c.IsFlat e) (nonempty : f ≠ c.combine []) :
    some (c.joined ((c.combined es).getD (c.combine [])) f) = c.combined (es ++ [f]) := by
  -- something is put together, since the last edge is not empty
  have present : c.combined (es ++ [f]) ≠ none := by
    rw [combined, ne_eq, Edge.collapse_eq_none, List.flatMap_append, List.flatMap_singleton]
    exact fun none => nonempty (members_eq_nil.mp (List.append_eq_nil_iff.mp none).2)
  obtain ⟨edge, found⟩ := Option.ne_none_iff_exists'.mp present
  rw [getD_combined, joined_eq, Grouping.join_gather_left before, ← getD_combined, found,
    Option.getD_some]

end Connective

/-! ### Edges of a node -/

namespace Node

open Connective (IsFlat)

/-- A node without an edge may be taken for one with the empty conjunction. -/
theorem and_of_isFlat {e : Edge κ} (flat : IsFlat .all e) (n : Node κ) :
    n.and e = { n with edge := some ((n.edge.getD (.conjunction [])).and e) } := by
  rw [and]
  cases n.edge with
  | none => rw [Option.getD_none, show (Edge.conjunction []).and e = e from
      Connective.joined_empty_left flat]
  | some present => rfl

/-- One more edge on a node that has all of the edges `ds`. -/
theorem and_of_edge_eq {n : Node κ} {ds : List (Edge κ)} {e : Edge κ}
    (present : n.edge = Edge.allOf ds) (before : ∀ d ∈ ds, IsFlat .all d) (last : IsFlat .all e)
    (nonempty : e ≠ .conjunction []) : n.and e = { n with edge := Edge.allOf (ds ++ [e]) } := by
  rw [and_of_isFlat last, present]
  exact congrArg (fun edge => { n with edge }) (Connective.some_joined_combined before nonempty)

/-- Edges that are added one by one to a node without an edge are all put together. -/
theorem foldl_and {n : Node κ} {es : List (Edge κ)} (without : n.edge = none)
    (flat : ∀ e ∈ es, IsFlat .all e) (nonempty : ∀ e ∈ es, e ≠ .conjunction []) :
    es.foldl and n = { n with edge := Edge.allOf es } := by
  induction es using List.reverseRecOn with
  | nil =>
    obtain ⟨label, edge, filter, order⟩ := n
    exact congrArg (Node.mk label · filter order) without
  | append_singleton ds e ih =>
    have ih := ih (fun d inside => flat d (List.mem_append_left _ inside))
      fun d inside => nonempty d (List.mem_append_left _ inside)
    have last := nonempty e (List.mem_append_right _ (List.mem_singleton_self e))
    obtain ⟨before, single⟩ := List.forall_mem_append.mp flat
    rw [List.foldl_append, List.foldl_cons, List.foldl_nil, ih,
      and_of_edge_eq rfl before (single e (List.mem_singleton_self e)) last]

end Node

open Connective (IsFlat)

/-- Edges put together say what they say one by one, where none stands for the empty combination,
and they consist of the same single edges in the same order. Flat edges may be put together in any
order of steps, and the empty combination changes none of them. So edges that are not empty can be
added to a node one by one, which changes nothing else of the node. -/
theorem Edge.combined_laws :
    (∀ (truth : Truth κ) (es : List (Edge κ)),
      (((allOf es).getD (.conjunction [])).Holds truth ↔ ∀ e ∈ es, e.Holds truth) ∧
      (((anyOf es).getD (.disjunction [])).Holds truth ↔ ∃ e ∈ es, e.Holds truth)) ∧
    (∀ es : List (Edge κ),
      (allOf es).elim [] atoms = es.flatMap atoms ∧ (anyOf es).elim [] atoms = es.flatMap atoms) ∧
    (∀ e f g : Edge κ, IsFlat .all e → IsFlat .all f → IsFlat .all g →
      (e.and f).and g = e.and (f.and g)) ∧
    (∀ e f g : Edge κ, IsFlat .any e → IsFlat .any f → IsFlat .any g →
      (e.or f).or g = e.or (f.or g)) ∧
    (∀ e : Edge κ, IsFlat .all e → (conjunction []).and e = e ∧ e.and (.conjunction []) = e) ∧
    (∀ e : Edge κ, IsFlat .any e → (disjunction []).or e = e ∧ e.or (.disjunction []) = e) ∧
    ∀ (n : Node κ) (es : List (Edge κ)), n.edge = none → (∀ e ∈ es, IsFlat .all e) →
      (∀ e ∈ es, e ≠ .conjunction []) → es.foldl Node.and n = { n with edge := allOf es } :=
  ⟨fun _ es => ⟨holds_getD_allOf es, holds_getD_anyOf es⟩,
    fun es => ⟨Connective.atoms_combined .all es, Connective.atoms_combined .any es⟩,
    fun _ _ _ => Connective.joined_assoc, fun _ _ _ => Connective.joined_assoc,
    fun _ flat => ⟨Connective.joined_empty_left flat, Connective.joined_empty_right flat⟩,
    fun _ flat => ⟨Connective.joined_empty_left flat, Connective.joined_empty_right flat⟩,
    fun _ _ => Node.foldl_and⟩

/-- A combination of the other kind stays a member, even if it is empty. -/
theorem Edge.combined_laws_empty :
    let child : Edge .numbered := .incoming (.var 2) ⟨"hasChild", some 40⟩
    let never : Edge .numbered := .conjunction [.disjunction [], child]
    (never.and child).and (.disjunction []) = never.and (child.and (.disjunction [])) ∧
    (child.or (.conjunction [])).or child = child.or ((Edge.conjunction []).or child) ∧
    (conjunction []).and never = never ∧ (disjunction []).or never = never ∧
    (((Node.var 0).and child).and (.disjunction [])).and never =
      { Node.var 0 with
        edge := some (.conjunction [child, .disjunction [], .disjunction [], child]) } := by
  intro child never
  obtain ⟨-, -, assoc_and, assoc_or, and_empty, or_empty, added⟩ := combined_laws (κ := .numbered)
  have single : ∀ c, IsFlat c child
    | .all, _, same => nomatch same
    | .any, _, same => nomatch same
  have nobody : IsFlat .all (disjunction [] : Edge .numbered) := fun _ same => nomatch same
  have anybody : IsFlat .any (conjunction [] : Edge .numbered) := fun _ same => nomatch same
  have flat : IsFlat .all never :=
    Connective.isFlat_combine.mpr (by simp [child, Connective.combine])
  have other : IsFlat .any never := fun _ same => nomatch same
  refine ⟨assoc_and _ _ _ flat (single _) nobody, assoc_or _ _ _ (single _) anybody (single _),
    (and_empty _ flat).1, (or_empty _ other).1, ?_⟩
  exact added (Node.var 0) [child, .disjunction [], never] rfl (by simp [*]) (by simp [child, never])

end PhraseGraph
