import Mathlib.Data.List.Induction
import Mathlib.Data.List.Nodup
import PhraseGraph.Ontology.Catalog
import PhraseGraph.Proofs.FirstOccurrences

/-!
# PhraseGraph.Proofs.Ontology.Catalog

What a catalog keeps of the elements that are inserted one after another.

## Main statements

`Catalog.names_ofList`: the names stand in the order in which they come first.
`Catalog.mem_ofList_iff`: of the elements of one name the last one is kept.
-/

namespace PhraseGraph

variable {α : Type} {name : α → String}

/-- The element is the last one of its name in a list. -/
def IsLatest (name : α → String) (as : List α) (a : α) : Prop :=
  ∃ before after, as = before ++ a :: after ∧ ∀ b ∈ after, name b ≠ name a

theorem not_isLatest_nil {a : α} : ¬IsLatest name [] a := by
  rintro ⟨before, after, shape, -⟩
  simp at shape

/-- A further element is the last one of its name, and leaves those of other names as they are. -/
theorem isLatest_concat_iff {as : List α} {a b : α} :
    IsLatest name (as ++ [b]) a ↔ a = b ∨ IsLatest name as a ∧ name a ≠ name b := by
  constructor
  · rintro ⟨before, after, shape, others⟩
    rcases List.eq_nil_or_concat' after with rfl | ⟨after, c, rfl⟩
    · exact Or.inl (List.append_singleton_inj.mp shape).2.symm
    · rw [← List.cons_append, ← List.append_assoc, List.append_singleton_inj] at shape
      obtain ⟨rfl, rfl⟩ := shape
      have other := others b (List.mem_append_right after List.mem_cons_self)
      exact Or.inr ⟨⟨before, after, rfl, fun c member => others c (List.mem_append_left _ member)⟩,
        other.symm⟩
  · rintro (rfl | ⟨⟨before, after, rfl, others⟩, other⟩)
    · exact ⟨as, [], rfl, by simp⟩
    · refine ⟨before, after ++ [b], by simp, fun c member => ?_⟩
      rcases List.mem_append.mp member with inside | last
      · exact others c inside
      · rw [List.mem_singleton.mp last]
        exact other.symm

theorem eraseDups_concat {β : Type} [BEq β] [LawfulBEq β] (bs : List β) (b : β) :
    (bs ++ [b]).eraseDups = if b ∈ bs then bs.eraseDups else bs.eraseDups ++ [b] := by
  rw [List.eraseDups_append]
  by_cases old : b ∈ bs
  · simp [List.removeAll, old]
  · simp [List.removeAll, old, List.eraseDups_cons]

namespace Catalog

variable {c : Catalog α name}

/-! ### Lookups -/

theorem find?_of_distinct {as : List α} (distinct : (as.map name).Nodup) {a : α}
    (member : a ∈ as) : as.find? (fun b => name b == name a) = some a := by
  induction as with
  | nil => cases member
  | cons b as ih =>
    rw [List.map_cons, List.nodup_cons] at distinct
    rcases List.mem_cons.mp member with rfl | later
    · exact List.find?_cons_of_pos (beq_self_eq_true _)
    · have different : name b ≠ name a := fun same =>
        distinct.1 (same ▸ List.mem_map_of_mem later)
      rw [List.find?_cons_of_neg (by simpa using different), ih distinct.2 later]

theorem find?_of_mem {a : α} (member : a ∈ c.toList) : c.find? (name a) = some a :=
  find?_of_distinct c.distinct member

theorem find?_eq_some_iff {id : String} {a : α} :
    c.find? id = some a ↔ name a = id ∧ a ∈ c.toList := by
  constructor
  · intro found
    exact ⟨name_of_find? found, mem_of_find? found⟩
  · rintro ⟨rfl, member⟩
    exact find?_of_mem member

theorem find?_eq_none_iff {id : String} : c.find? id = none ↔ id ∉ c.names := by
  simp [find?, names]

/-! ### Insertions -/

/-- An insertion replaces the element of the same name. -/
theorem mem_insert_iff {a b : α} :
    a ∈ (c.insert b).toList ↔ a = b ∨ a ∈ c.toList ∧ name a ≠ name b := by
  change a ∈ put name b c.toList ↔ _
  unfold put
  split
  · next known =>
    obtain ⟨old, stands, same⟩ := List.mem_map.mp known
    rw [List.mem_map]
    constructor
    · rintro ⟨x, member, rfl⟩
      split
      · exact Or.inl rfl
      · next other => exact Or.inr ⟨member, other⟩
    · rintro (rfl | ⟨member, other⟩)
      · exact ⟨old, stands, if_pos same⟩
      · exact ⟨a, member, if_neg other⟩
  · next fresh =>
    have other (member : a ∈ c.toList) : name a ≠ name b := fun same =>
      fresh (same ▸ List.mem_map_of_mem member)
    rw [List.mem_append, List.mem_singleton, or_comm, and_iff_left_of_imp other]

/-- The catalog of elements that are inserted in the order of a list. -/
def ofList (as : List α) : Catalog α name := as.foldl insert empty

theorem ofList_concat (as : List α) (a : α) :
    (ofList (as ++ [a]) : Catalog α name) = (ofList as).insert a := by
  simp [ofList]

theorem names_ofList (as : List α) :
    (ofList as : Catalog α name).names = (as.map name).eraseDups := by
  induction as using List.reverseRecOn with
  | nil => rfl
  | append_singleton as a ih =>
    rw [ofList_concat, names_insert, ih, List.map_append, List.map_singleton, eraseDups_concat]
    simp only [List.mem_eraseDups]

theorem mem_ofList_iff {as : List α} {a : α} :
    a ∈ (ofList as : Catalog α name).toList ↔ IsLatest name as a := by
  induction as using List.reverseRecOn with
  | nil => exact iff_of_false List.not_mem_nil not_isLatest_nil
  | append_singleton as b ih => rw [ofList_concat, mem_insert_iff, ih, isLatest_concat_iff]

end Catalog

end PhraseGraph
