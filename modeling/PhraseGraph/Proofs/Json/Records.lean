import Mathlib.Data.List.Forall2
import Mathlib.Data.List.Nodup
import PhraseGraph.Json.Basic

/-!
# PhraseGraph.Proofs.Json.Records

Records as JSON values.

What is found in a value is told by a relation between values and results. A record is found in the
members of an object, each under the key of its field, or in the elements of a list.

## Main statements

`Json.exists_isRecord`: a record is found in an object that has its members, in any order and with
others among them.
`Json.not_isRecord_of_repeats`: no record is found where a field comes twice.
-/

namespace PhraseGraph.Json

def IsString (v : Json) (s : String) : Prop := v = .string s

/-! ### Fields and entries -/

section Records

variable {φ α : Type} (field? : String → Option φ) (fields : List φ)

/-- The members of an object that stand for fields, in their order. -/
def named (ms : List (String × Json)) : List (φ × Json) :=
  ms.filterMap fun m => (field? m.1).map (·, m.2)

/-- What a value has for the fields of a record: the members of an object, none of them twice, or
the elements of a list in the order of the fields. -/
inductive Entries : Json → List (φ × Json) → Prop
  | members {ms : List (String × Json)} (distinct : ((named field? ms).map Prod.fst).Nodup) :
    Entries (.object ms) (named field? ms)
  | elements {es : List Json} (few : es.length ≤ fields.length) :
    Entries (.array es) (fields.zip es)

variable (stands : φ → Json → α → Prop)

/-- The same field, and a result for its value. -/
def Fits (entry : φ × Json) (known : φ × α) : Prop :=
  known.1 = entry.1 ∧ stands entry.1 entry.2 known.2

/-- A result for every entry of a value, and an entry for every field that is required. -/
def IsRecord (required : Bool) (v : Json) (known : List (φ × α)) : Prop :=
  ∃ entries, Entries field? fields v entries ∧ List.Forall₂ (Fits stands) entries known ∧
    (required = true → ∀ field ∈ fields, field ∈ known.map Prod.fst)

end Records

theorem exists_of_mem_fits {φ α : Type} {stands : φ → Json → α → Prop}
    {entries : List (φ × Json)} {known : List (φ × α)} {entry : φ × Json}
    (fits : List.Forall₂ (Fits stands) entries known) (member : entry ∈ entries) :
    ∃ a, stands entry.1 entry.2 a := by
  induction fits with
  | nil => cases member
  | cons here _ ih =>
    rcases List.mem_cons.mp member with rfl | later
    · exact ⟨_, here.2⟩
    · exact ih later

/-- The results are for the same fields, in the same order. -/
theorem map_fst_of_fits {φ α : Type} {stands : φ → Json → α → Prop} {entries : List (φ × Json)}
    {known : List (φ × α)} (fits : List.Forall₂ (Fits stands) entries known) :
    known.map Prod.fst = entries.map Prod.fst := by
  induction fits with
  | nil => rfl
  | cons here _ ih => rw [List.map_cons, List.map_cons, here.1, ih]

theorem isSome_lookup_iff {φ α : Type} [DecidableEq φ] {known : List (φ × α)} {field : φ} :
    (known.lookup field).isSome = true ↔ field ∈ known.map Prod.fst := by
  simp only [List.lookup_isSome_iff, List.mem_map, beq_iff_eq]
  exact exists_congr fun entry => and_congr_right fun _ => eq_comm

section IsRecord

variable {φ α : Type} {field? : String → Option φ} {fields : List φ}
  {stands : φ → Json → α → Prop} {required : Bool} {known : List (φ × α)}

theorem isRecord_object_iff {ms : List (String × Json)} :
    IsRecord field? fields stands required (.object ms) known ↔
      (List.Forall₂ (Fits stands) (named field? ms) known ∧ (known.map Prod.fst).Nodup) ∧
        (required = true → ∀ field ∈ fields, field ∈ known.map Prod.fst) := by
  constructor
  · rintro ⟨_, ⟨distinct⟩, fits, complete⟩
    exact ⟨⟨fits, map_fst_of_fits fits ▸ distinct⟩, complete⟩
  · rintro ⟨⟨fits, distinct⟩, complete⟩
    exact ⟨_, .members (map_fst_of_fits fits ▸ distinct), fits, complete⟩

theorem isRecord_array_iff {es : List Json} :
    IsRecord field? fields stands required (.array es) known ↔
      (es.length ≤ fields.length ∧ List.Forall₂ (Fits stands) (fields.zip es) known) ∧
        (required = true → ∀ field ∈ fields, field ∈ known.map Prod.fst) := by
  constructor
  · rintro ⟨_, entries, fits, complete⟩
    cases entries with
    | elements few => exact ⟨⟨few, fits⟩, complete⟩
  · rintro ⟨⟨few, fits⟩, complete⟩
    exact ⟨_, .elements few, fits, complete⟩

end IsRecord

/-! ### Objects -/

/-- A key stands more than once. -/
def Repeats (ms : List (String × Json)) (key : String) : Prop := 2 ≤ (ms.map Prod.fst).count key

instance (ms : List (String × Json)) (key : String) : Decidable (Repeats ms key) :=
  inferInstanceAs (Decidable (_ ≤ _))

section Objects

variable {φ α : Type} {field? : String → Option φ} {fields : List φ}
  {stands : φ → Json → α → Prop} {required : Bool} {known : List (φ × α)}
  {ms : List (String × Json)}

theorem map_fst_named : (named field? ms).map Prod.fst = (ms.map Prod.fst).filterMap field? := by
  rw [named, List.map_filterMap, List.filterMap_map]
  simp [Function.comp_def]

/-- No record has a field twice. -/
theorem not_isRecord_of_repeats {key : String} {field : φ} (names : field? key = some field)
    (repeats : Repeats ms key) : ¬IsRecord field? fields stands required (.object ms) known := by
  rintro ⟨_, ⟨distinct⟩, -⟩
  -- two members of one key leave two entries of one field
  have twice : [key, key].Sublist (ms.map Prod.fst) := List.replicate_sublist_iff.mpr repeats
  rw [map_fst_named] at distinct
  apply List.nodup_iff_sublist.mp distinct field
  simpa [names] using twice.filterMap field?

/-- A member that stands for a field has a result. -/
theorem IsRecord.exists_value (record : IsRecord field? fields stands required (.object ms) known)
    {key : String} {v : Json} {field : φ} (member : (key, v) ∈ ms)
    (names : field? key = some field) : ∃ a, stands field v a := by
  obtain ⟨_, ⟨-⟩, fits, -⟩ := record
  have entry : (field, v) ∈ named field? ms :=
    List.mem_filterMap.mpr ⟨(key, v), member, by rw [names]; rfl⟩
  exact exists_of_mem_fits fits entry

section Given

variable {key : φ → String} {value : φ → Json} {result : φ → α} {given : List φ}
  {others : List (String × Json)}

/-- Members for some fields, in any order and with others among them. -/
theorem named_perm (names : ∀ field, field? (key field) = some field)
    (unknown : ∀ m ∈ others, field? m.1 = none)
    (perm : ms.Perm (given.map (fun field => (key field, value field)) ++ others)) :
    (named field? ms).Perm (given.map fun field => (field, value field)) := by
  have none : named field? others = [] :=
    List.filterMap_eq_nil_iff.mpr fun m member => by rw [unknown m member]; rfl
  have some : named field? (given.map fun field => (key field, value field)) =
      given.map fun field => (field, value field) := by
    rw [named, List.filterMap_map]
    simp [names]
  have parts : named field? (given.map (fun field => (key field, value field)) ++ others) =
      given.map fun field => (field, value field) := by
    rw [named, List.filterMap_append, ← named, ← named, some, none, List.append_nil]
  exact parts ▸ perm.filterMap _

theorem map_fst_perm (perm : known.Perm (given.map fun field => (field, result field))) :
    (known.map Prod.fst).Perm given := by
  have keys := perm.map Prod.fst
  simpa only [List.map_map, Function.comp_def, List.map_id'] using keys

/-- An object with such members is a record of the results for them. -/
theorem exists_isRecord (names : ∀ field, field? (key field) = some field)
    (distinct : given.Nodup) (unknown : ∀ m ∈ others, field? m.1 = none)
    (perm : ms.Perm (given.map (fun field => (key field, value field)) ++ others))
    (found : ∀ field ∈ given, stands field (value field) (result field))
    (complete : required = true → ∀ field ∈ fields, field ∈ given) :
    ∃ known, IsRecord field? fields stands required (.object ms) known ∧
      known.Perm (given.map fun field => (field, result field)) := by
  -- the results stand in the order of the text, not in that of the fields
  have entries := named_perm names unknown perm
  have results := entries.map fun entry => (entry.1, result entry.1)
  rw [List.map_map] at results
  have keys := map_fst_perm results
  refine ⟨_, isRecord_object_iff.mpr ⟨⟨?_, keys.nodup_iff.mpr distinct⟩, ?_⟩, results⟩
  · rw [List.forall₂_map_right_iff, List.forall₂_same]
    intro entry member
    obtain ⟨field, listed, rfl⟩ := List.mem_map.mp (entries.mem_iff.mp member)
    exact ⟨rfl, found field listed⟩
  · exact fun needed field listed => keys.mem_iff.mpr (complete needed field listed)

theorem lookup_of_perm [DecidableEq φ]
    (perm : known.Perm (given.map fun field => (field, result field))) (field : φ) :
    known.lookup field = if field ∈ given then some (result field) else none := by
  cases found : known.lookup field with
  | none =>
    have absent : field ∉ given := by
      rw [← (map_fst_perm perm).mem_iff, ← isSome_lookup_iff, found]
      nofun
    rw [if_neg absent]
  | some a =>
    obtain ⟨before, behind, rfl, -⟩ := List.lookup_eq_some_iff.mp found
    obtain ⟨field', listed, same⟩ := List.mem_map.mp (perm.mem_iff.mp List.mem_append_cons_self)
    obtain ⟨rfl, rfl⟩ := Prod.mk.inj same
    rw [if_pos listed]

end Given

end Objects

end PhraseGraph.Json
