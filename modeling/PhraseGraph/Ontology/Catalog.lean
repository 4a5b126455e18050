/-!
# PhraseGraph.Ontology.Catalog

Elements under names, in the order in which the names were first declared.

## Main statements

`Catalog.find?_insert_self` and `Catalog.find?_insert_of_ne`: an insertion sets the element of
its own name and no other. `Catalog.names_insert`: it adds its name at the end, if it is new.
-/

namespace PhraseGraph

/-- A list of elements with distinct names. -/
structure Catalog (α : Type) (name : α → String) where
  toList : List α
  distinct : (toList.map name).Nodup

namespace Catalog

variable {α : Type} {name : α → String}

def empty : Catalog α name := ⟨[], List.nodup_nil⟩

def names (c : Catalog α name) : List String := c.toList.map name

def find? (c : Catalog α name) (id : String) : Option α := c.toList.find? fun a => name a == id

/-- The list with the element in the place of the one of the same name, or at the end. -/
def put (name : α → String) (a : α) (as : List α) : List α :=
  if name a ∈ as.map name then as.map fun b => if name b = name a then a else b else as ++ [a]

theorem map_name_put (a : α) (as : List α) :
    (put name a as).map name =
      if name a ∈ as.map name then as.map name else as.map name ++ [name a] := by
  unfold put
  split
  · rw [List.map_map]
    apply List.map_congr_left
    intro b _
    simp only [Function.comp_apply]
    split <;> simp_all
  · simp

/-- Declares an element. One that has the same name already is replaced where it stands. -/
def insert (c : Catalog α name) (a : α) : Catalog α name where
  toList := put name a c.toList
  distinct := by
    rw [map_name_put]
    split
    · exact c.distinct
    · next fresh =>
      rw [List.nodup_append]
      refine ⟨c.distinct, by simp, ?_⟩
      intro x member y single
      rw [List.mem_singleton] at single
      rintro rfl
      exact fresh (single ▸ member)

theorem names_insert (c : Catalog α name) (a : α) :
    (c.insert a).names = if name a ∈ c.names then c.names else c.names ++ [name a] :=
  map_name_put a c.toList

theorem find?_put_self (a : α) (as : List α) :
    (put name a as).find? (fun b => name b == name a) = some a := by
  unfold put
  split
  · next member =>
    induction as with
    | nil => simp at member
    | cons b as ih =>
      by_cases same : name b = name a
      · simp [same]
      · have later : name a ∈ as.map name := by
          rcases List.mem_cons.mp member with first | later
          · exact absurd first.symm same
          · exact later
        simpa [same] using ih later
  · next fresh =>
    have none : as.find? (fun b => name b == name a) = none := by
      rw [List.find?_eq_none]
      intro b member
      simp only [beq_iff_eq]
      intro same
      exact fresh (same ▸ List.mem_map_of_mem member)
    simp [List.find?_append, none]

theorem find?_put_of_ne (a : α) (as : List α) {id : String} (other : name a ≠ id) :
    (put name a as).find? (fun b => name b == id) = as.find? (fun b => name b == id) := by
  unfold put
  split
  · next member =>
    clear member
    induction as with
    | nil => rfl
    | cons b as ih =>
      by_cases same : name b = name a
      · simp [same, other, ih]
      · simp [same, List.find?_cons, ih]
  · simp [List.find?_append, other]

@[simp] theorem find?_insert_self (c : Catalog α name) (a : α) :
    (c.insert a).find? (name a) = some a :=
  find?_put_self a c.toList

theorem find?_insert_of_ne (c : Catalog α name) (a : α) {id : String} (other : name a ≠ id) :
    (c.insert a).find? id = c.find? id :=
  find?_put_of_ne a c.toList other

theorem mem_of_find? {c : Catalog α name} {id : String} {a : α} (found : c.find? id = some a) :
    a ∈ c.toList :=
  List.mem_of_find?_eq_some found

theorem name_of_find? {c : Catalog α name} {id : String} {a : α} (found : c.find? id = some a) :
    name a = id := by
  simpa using List.find?_some found

end Catalog

end PhraseGraph
