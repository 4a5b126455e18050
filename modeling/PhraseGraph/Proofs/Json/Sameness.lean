import Mathlib.Data.List.Forall2
import PhraseGraph.Json.Basic

/-!
# PhraseGraph.Proofs.Json.Sameness

When two JSON values are the same to a reader.

The members of an object have no order, and what stands under a key is all that is read of it.
Numbers are compared as values, and those that are not finite stand as null. A count is never the
same as a number with a point.

## Main statements

`Json.same_ofMembers`: objects that are told by what stands under their keys are the same if the
same stands under every key.
-/

namespace PhraseGraph

def Binary64.isFinite : Binary64 → Bool
  | .finite _ _ => true
  | _ => false

namespace Json

def isNull : Json → Bool
  | .null => true
  | .number x => !x.isFinite
  | _ => false

mutual

/-- Sameness of values. -/
def same : Json → Json → Bool
  | .bool b, .bool c => b == c
  | .count n, .count m => n == m
  | .number x, .number y => x.same y || (!x.isFinite && !y.isFinite)
  | .string s, .string t => s == t
  | .array es, .array fs => sameElements es fs
  -- either object has a value for every key of the other, and it is the same
  | .object ms, .object ns => sameMembers ms ns && ns.all fun n => (ms.lookup n.1).isSome
  | j, k => j.isNull && k.isNull

def sameElements : List Json → List Json → Bool
  | [], [] => true
  | e :: es, f :: fs => same e f && sameElements es fs
  | _, _ => false

/-- Whether an object has the same values for the keys of some members. -/
def sameMembers : List (String × Json) → List (String × Json) → Bool
  | [], _ => true
  | (key, v) :: ms, ns =>
    (match ns.lookup key with
      | some w => same v w
      | none => false) && sameMembers ms ns

end

/-- Values are the same, and there are either both of them or none. -/
abbrev SameOptional : Option Json → Option Json → Prop := Option.Rel fun v w => same v w = true

theorem SameOptional.exists_of_some {v : Json} {w? : Option Json}
    (pair : SameOptional (some v) w?) : ∃ w, w? = some w ∧ same v w = true := by
  cases pair with
  | some values => exact ⟨_, rfl, values⟩

theorem SameOptional.isSome_eq {v? w? : Option Json} (pair : SameOptional v? w?) :
    v?.isSome = w?.isSome := by
  cases pair <;> rfl

@[simp] theorem same_string {s t : String} : same (.string s) (.string t) = true ↔ s = t := by
  rw [same, beq_iff_eq]

@[simp] theorem same_count {n m : Nat} : same (.count n) (.count m) = true ↔ n = m := by
  rw [same, beq_iff_eq]

theorem same_number {x y : Binary64} (finite : x.isFinite = true) :
    same (.number x) (.number y) = x.same y := by
  simp [same, finite]

theorem same_array {es fs : List Json} :
    same (.array es) (.array fs) = true ↔ List.Forall₂ (fun e f => same e f = true) es fs := by
  rw [same]
  induction es generalizing fs with
  | nil => cases fs <;> simp [sameElements]
  | cons e es ih => cases fs <;> simp [sameElements, ih]

theorem sameMembers_iff {ms ns : List (String × Json)} :
    sameMembers ms ns = true ↔ ∀ m ∈ ms, ∃ w, ns.lookup m.1 = some w ∧ same m.2 w = true := by
  induction ms with
  | nil => simp [sameMembers]
  | cons m ms ih =>
    rw [sameMembers, Bool.and_eq_true, ih, List.forall_mem_cons]
    cases ns.lookup m.1 <;> simp

theorem same_object {ms ns : List (String × Json)} :
    same (.object ms) (.object ns) = true ↔
      (∀ m ∈ ms, ∃ w, ns.lookup m.1 = some w ∧ same m.2 w = true) ∧
        ∀ n ∈ ns, (ms.lookup n.1).isSome := by
  rw [same, Bool.and_eq_true, sameMembers_iff, List.all_eq_true]

theorem same_singleton {key key' : String} {v w : Json} :
    same (.object [(key, v)]) (.object [(key', w)]) = true ↔ key = key' ∧ same v w = true := by
  rw [same_object]
  by_cases here : key = key'
  · simp [here]
  · have other : (key == key') = false := by simpa using here
    simp [here, List.lookup_cons, other]

/-! ### Objects told by their keys -/

/-- The object with what stands under each of some keys, if anything does. -/
def ofMembers (keys : List String) (member? : String → Option Json) : Json :=
  .object (keys.filterMap fun key => (member? key).map fun v => (key, v))

variable {keys : List String} {member? member'? : String → Option Json}

theorem mem_members {m : String × Json} :
    (m ∈ keys.filterMap fun key => (member? key).map fun v => (key, v)) ↔
      m.1 ∈ keys ∧ member? m.1 = some m.2 := by
  obtain ⟨key, v⟩ := m
  simp only [List.mem_filterMap, Option.map_eq_some_iff, Prod.mk.injEq]
  constructor
  · rintro ⟨_, listed, _, stands, rfl, rfl⟩
    exact ⟨listed, stands⟩
  · rintro ⟨listed, stands⟩
    exact ⟨key, listed, v, stands, rfl, rfl⟩

theorem lookup_members {key : String} (listed : key ∈ keys) :
    (keys.filterMap fun key => (member? key).map fun v => (key, v)).lookup key = member? key := by
  induction keys with
  | nil => cases listed
  | cons first keys ih =>
    by_cases here : key = first
    · subst here
      cases stands : member? key with
      | none =>
        -- the key may be listed again, but nothing stands under it there either
        rw [List.lookup_eq_none_iff]
        intro m member
        obtain ⟨-, stands'⟩ := mem_members.mp member
        refine bne_iff_ne.mpr fun same => ?_
        rw [← same, stands] at stands'
        cases stands'
      | some v => simp [stands]
    · have later := ih ((List.mem_cons.mp listed).resolve_left here)
      have other : (key == first) = false := by simpa using here
      rw [List.filterMap_cons]
      cases member? first with
      | none => exact later
      | some v => simpa [List.lookup_cons, other] using later

theorem same_ofMembers :
    same (ofMembers keys member?) (ofMembers keys member'?) = true ↔
      ∀ key ∈ keys, SameOptional (member? key) (member'? key) := by
  rw [ofMembers, ofMembers, same_object]
  constructor
  · rintro ⟨forth, back⟩ key listed
    cases stands : member? key with
    | some v =>
      obtain ⟨w, stands', values⟩ := forth (key, v) (mem_members.mpr ⟨listed, stands⟩)
      rw [lookup_members listed] at stands'
      rw [stands']
      exact .some values
    | none =>
      cases stands' : member'? key with
      | none => exact .none
      | some w =>
        have found := back (key, w) (mem_members.mpr ⟨listed, stands'⟩)
        rw [lookup_members listed, stands] at found
        cases found
  · intro each
    constructor
    · intro m member
      obtain ⟨listed, stands⟩ := mem_members.mp member
      rw [lookup_members listed]
      exact (stands ▸ each m.1 listed).exists_of_some
    · intro n member
      obtain ⟨listed, stands⟩ := mem_members.mp member
      rw [lookup_members listed, (each n.1 listed).isSome_eq, stands]
      rfl

end Json

end PhraseGraph
