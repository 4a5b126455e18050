import Mathlib.Data.List.Nodup

/-!
# PhraseGraph.Proofs.FirstOccurrences

Lists without their repetitions: `List.eraseDups` keeps the first occurrence of each element.
-/

namespace PhraseGraph

variable {α β : Type} [BEq α] [LawfulBEq α] [BEq β] [LawfulBEq β]

omit [LawfulBEq α] in
/-- Induction along `List.eraseDups`: behind its head a list goes on without the head. -/
theorem eraseDups_induction {motive : List α → Prop} (nil : motive [])
    (cons : ∀ a as, motive (as.filter fun b => !b == a) → motive (a :: as)) : ∀ as, motive as
  | [] => nil
  | a :: as => cons a as (eraseDups_induction nil cons _)
termination_by as => as.length
decreasing_by exact Nat.lt_succ_of_le (List.length_filter_le _ _)

theorem nodup_eraseDups (as : List α) : as.eraseDups.Nodup := by
  induction as using eraseDups_induction with
  | nil => exact List.nodup_nil
  | cons a as ih =>
    rw [List.eraseDups_cons, List.nodup_cons]
    refine ⟨?_, ih⟩
    simp [List.mem_eraseDups]

theorem filter_eraseDups (keeps : α → Bool) (as : List α) :
    as.eraseDups.filter keeps = (as.filter keeps).eraseDups := by
  induction as using eraseDups_induction with
  | nil => rfl
  | cons a as ih =>
    rw [List.eraseDups_cons]
    -- a head that is dropped takes with it all that its first occurrence would have removed
    cases kept : keeps a with
    | true =>
      rw [List.filter_cons_of_pos kept, List.filter_cons_of_pos kept, ih, List.eraseDups_cons,
        List.filter_filter, List.filter_filter]
      simp only [Bool.and_comm]
    | false =>
      have dropped : ¬keeps a = true := by simp [kept]
      rw [List.filter_cons_of_neg dropped, List.filter_cons_of_neg dropped, ih, List.filter_filter]
      congr 1
      apply List.filter_congr
      intro b _
      by_cases same : b = a
      · simp [same, kept]
      · simp [same]

omit [BEq α] [LawfulBEq α] [BEq β] [LawfulBEq β] in
/-- Elements that give nothing may be left out. -/
theorem flatMap_filter_of_eq_nil {f : α → List β} {keeps : α → Bool}
    (dropped : ∀ a, keeps a = false → f a = []) (as : List α) :
    (as.filter keeps).flatMap f = as.flatMap f := by
  induction as with
  | nil => rfl
  | cons a as ih =>
    cases kept : keeps a with
    | true => rw [List.filter_cons_of_pos kept, List.flatMap_cons, List.flatMap_cons, ih]
    | false =>
      rw [List.filter_cons_of_neg (by simp [kept]), List.flatMap_cons, dropped a kept,
        List.nil_append, ih]

/-- An element that occurs again gives nothing new. -/
theorem eraseDups_flatMap_eraseDups (f : α → List β) (as : List α) :
    (as.eraseDups.flatMap f).eraseDups = (as.flatMap f).eraseDups := by
  induction as using eraseDups_induction with
  | nil => rfl
  | cons a as ih =>
    -- whatever the other occurrences of `a` give is removed behind the first one
    have tail : ((as.filter fun b => !b == a).flatMap f).removeAll (f a) =
        (as.flatMap f).removeAll (f a) := by
      rw [List.removeAll, List.removeAll, List.filter_flatMap, List.filter_flatMap]
      refine flatMap_filter_of_eq_nil (fun b same => ?_) as
      obtain rfl : b = a := by simpa using same
      simp
    rw [List.eraseDups_cons, List.flatMap_cons, List.flatMap_cons, List.eraseDups_append,
      List.eraseDups_append, ← tail, List.removeAll, List.removeAll, ← filter_eraseDups, ih,
      filter_eraseDups]

/-- Repetitions may be left out before a function is applied as well as after. -/
theorem eraseDups_map_eraseDups (f : α → β) (as : List α) :
    (as.eraseDups.map f).eraseDups = (as.map f).eraseDups := by
  rw [List.map_eq_flatMap, List.map_eq_flatMap, eraseDups_flatMap_eraseDups]

theorem eraseDups_eraseDups (as : List α) : as.eraseDups.eraseDups = as.eraseDups := by
  simpa using eraseDups_map_eraseDups id as

theorem eraseDups_append_eraseDups (as bs : List α) :
    (as.eraseDups ++ bs.eraseDups).eraseDups = (as ++ bs).eraseDups := by
  have known : bs.eraseDups.removeAll as.eraseDups = (bs.removeAll as).eraseDups := by
    rw [List.removeAll, List.removeAll, ← filter_eraseDups]
    simp [List.mem_eraseDups]
  rw [List.eraseDups_append, List.eraseDups_append, known, eraseDups_eraseDups, eraseDups_eraseDups]

omit [BEq α] [LawfulBEq α] in
/-- Further copies of a list add nothing to it. -/
theorem eraseDups_flatMap_const {as : List α} (nonempty : as ≠ []) (bs : List β) :
    (as.flatMap fun _ => bs).eraseDups = bs.eraseDups := by
  obtain ⟨a, rest, rfl⟩ := List.exists_cons_of_ne_nil nonempty
  have nothing : (rest.flatMap fun _ => bs).removeAll bs = [] := by
    rw [List.removeAll, List.filter_eq_nil_iff]
    intro b member
    obtain ⟨-, -, known⟩ := List.mem_flatMap.mp member
    simpa using known
  rw [List.flatMap_cons, List.eraseDups_append, nothing, List.eraseDups_nil, List.append_nil]

/-- An element comes before every element that first occurs behind it. -/
theorem sublist_eraseDups {before after : List α} {a b : α} (early : a ∈ before) (late : b ∈ after)
    (new : b ∉ before) : [a, b].Sublist (before ++ after).eraseDups := by
  have first : a ∈ before.eraseDups := List.mem_eraseDups.mpr early
  -- what occurs for the first time in `after` is what `before` does not remove from it
  have second : b ∈ (after.removeAll before).eraseDups := by
    rw [List.mem_eraseDups, List.removeAll, List.mem_filter]
    simp [late, new]
  rw [List.eraseDups_append]
  exact (List.singleton_sublist.mpr first).append (List.singleton_sublist.mpr second)

/-! ### Searches -/

omit [BEq α] [LawfulBEq α] [BEq β] [LawfulBEq β] in
theorem findSome?_filterMap {γ : Type} (f : α → Option β) (succeeds : β → Option γ) (as : List α) :
    (as.filterMap f).findSome? succeeds = as.findSome? fun a => (f a).bind succeeds := by
  induction as with
  | nil => rfl
  | cons a as ih =>
    rw [List.filterMap_cons, List.findSome?_cons]
    cases f a with
    | none => exact ih
    | some b => rw [List.findSome?_cons, ih]; rfl

omit [BEq α] [LawfulBEq α] [BEq β] [LawfulBEq β] in
theorem findSome?_flatMap {γ : Type} (f : α → List β) (succeeds : β → Option γ) (as : List α) :
    (as.flatMap f).findSome? succeeds = as.findSome? fun a => (f a).findSome? succeeds := by
  induction as with
  | nil => rfl
  | cons a as ih =>
    rw [List.flatMap_cons, List.findSome?_append, ih, List.findSome?_cons]
    cases (f a).findSome? succeeds <;> rfl

end PhraseGraph
