import Mathlib.Data.List.Basic

/-!
# PhraseGraph.Proofs.Grouping

Things that are put together into groups of their own kind.

Groups among what is put together are opened, but only once, and a single member stands for itself.
So it matters in which steps that is done as long as groups may have groups as members, or a single
member. It does not matter where groups are flat.

## Main statements

`Grouping.isFlat_gather`: what is put together from flat things is flat. `Grouping.gather_map_gather`:
flat things may be put together in any steps. `Grouping.join_assoc`, `Grouping.foldl_join` and
`Grouping.foldr_join`: two at a time.
-/

namespace PhraseGraph

/-- Groups of things, which are things again, and what each thing is opened into. What is not a group
is opened into itself. -/
structure Grouping (α : Type) where
  group : List α → α
  members : α → List α
  members_group (as : List α) : members (group as) = as
  members_of_ne {a : α} : (∀ as, a ≠ group as) → members a = [a]

namespace Grouping

variable {α : Type} {g : Grouping α} {a b c : α} {as bs : List α}

/-- A group, unless it would have a single member. -/
def close (g : Grouping α) : List α → α
  | [a] => a
  | as => g.group as

/-- Things put together, with the groups among them opened. -/
def gather (g : Grouping α) (as : List α) : α := g.close (as.flatMap g.members)

def join (g : Grouping α) (a b : α) : α := g.gather [a, b]

/-- If it is a group, then it does not have a single member, and none of its members is a group. -/
def IsFlat (g : Grouping α) (a : α) : Prop :=
  ∀ as, a = g.group as → as.length ≠ 1 ∧ ∀ b ∈ as, ∀ bs, b ≠ g.group bs

/-! ### Flat groups -/

theorem isFlat_of_ne (other : ∀ as, a ≠ g.group as) : g.IsFlat a :=
  fun as same => absurd same (other as)

theorem isFlat_group :
    g.IsFlat (g.group as) ↔ as.length ≠ 1 ∧ ∀ b ∈ as, ∀ bs, b ≠ g.group bs := by
  refine ⟨fun flat => flat as rfl, fun flat bs same => ?_⟩
  rw [← g.members_group bs, ← same, g.members_group]
  exact flat

theorem IsFlat.ne_group_of_mem (flat : g.IsFlat a) : ∀ b ∈ g.members a, ∀ bs, b ≠ g.group bs := by
  by_cases isGroup : ∃ as, a = g.group as
  · obtain ⟨as, rfl⟩ := isGroup
    rw [g.members_group]
    exact (flat as rfl).2
  · have other := not_exists.mp isGroup
    rw [g.members_of_ne other]
    exact List.forall_mem_singleton.mpr other

theorem ne_group_of_mem_flatMap (flat : ∀ a ∈ as, g.IsFlat a) :
    ∀ b ∈ as.flatMap g.members, ∀ bs, b ≠ g.group bs :=
  List.forall_mem_flatMap.mpr fun a inside => (flat a inside).ne_group_of_mem

theorem isFlat_close (apart : ∀ b ∈ as, ∀ bs, b ≠ g.group bs) : g.IsFlat (g.close as) := by
  rw [close.eq_def]
  split
  -- what stands for itself was a member, and so no group
  · next a => exact isFlat_of_ne (apart a (List.mem_singleton_self a))
  · next several =>
    refine isFlat_group.mpr ⟨fun one => ?_, apart⟩
    obtain ⟨a, single⟩ := List.length_eq_one_iff.mp one
    exact several a single

theorem isFlat_gather (flat : ∀ a ∈ as, g.IsFlat a) : g.IsFlat (g.gather as) :=
  isFlat_close (ne_group_of_mem_flatMap flat)

/-! ### Opening what has been put together -/

theorem members_close (apart : ∀ b ∈ as, ∀ bs, b ≠ g.group bs) : g.members (g.close as) = as := by
  rw [close.eq_def]
  split
  · next a => exact g.members_of_ne (apart a (List.mem_singleton_self a))
  · exact g.members_group _

theorem IsFlat.close_members (flat : g.IsFlat a) : g.close (g.members a) = a := by
  by_cases isGroup : ∃ as, a = g.group as
  · obtain ⟨as, rfl⟩ := isGroup
    rw [g.members_group, close.eq_def]
    split
    · next b => exact absurd rfl (flat [b] rfl).1
    · rfl
  · rw [g.members_of_ne (not_exists.mp isGroup), close]

theorem members_gather (flat : ∀ a ∈ as, g.IsFlat a) :
    g.members (g.gather as) = as.flatMap g.members :=
  members_close (ne_group_of_mem_flatMap flat)

theorem IsFlat.gather_singleton (flat : g.IsFlat a) : g.gather [a] = a := by
  rw [gather, List.flatMap_singleton, flat.close_members]

/-- A flat group is put together from its members. -/
theorem gather_eq_group (flat : g.IsFlat (g.group as)) : g.gather as = g.group as := by
  have single : ∀ b ∈ as, g.members b = [b] := fun b inside =>
    g.members_of_ne ((isFlat_group.mp flat).2 b inside)
  rw [gather, List.flatMap_congr single, List.flatMap_singleton', ← g.members_group as,
    flat.close_members, g.members_group]

/-! ### Putting together in steps -/

@[simp] theorem gather_nil (g : Grouping α) : g.gather [] = g.group [] := rfl

/-- Things put together list by list, and all at once. -/
theorem gather_map_gather {rows : List (List α)} (flat : ∀ as ∈ rows, ∀ a ∈ as, g.IsFlat a) :
    g.gather (rows.map g.gather) = g.gather rows.flatten := by
  have opened : ∀ as ∈ rows, g.members (g.gather as) = as.flatMap g.members := fun as inside =>
    members_gather (flat as inside)
  rw [gather, gather, List.flatMap_map, List.flatMap_congr opened, List.flatten_eq_flatMap,
    List.flatMap_assoc]
  rfl

/-- One more thing put together with flat ones. -/
theorem join_gather_left (flat : ∀ a ∈ as, g.IsFlat a) (b : α) :
    g.join (g.gather as) b = g.gather (as ++ [b]) := by
  rw [join, gather, List.flatMap_cons, members_gather flat, gather, List.flatMap_append]

theorem join_gather (first : ∀ a ∈ as, g.IsFlat a) (second : ∀ b ∈ bs, g.IsFlat b) :
    g.join (g.gather as) (g.gather bs) = g.gather (as ++ bs) := by
  have both : ∀ cs ∈ [as, bs], ∀ c ∈ cs, g.IsFlat c := by simpa using ⟨first, second⟩
  have joined := gather_map_gather both
  rwa [List.flatten_cons, List.flatten_singleton] at joined

theorem join_assoc (first : g.IsFlat a) (second : g.IsFlat b) (third : g.IsFlat c) :
    g.join (g.join a b) c = g.join a (g.join b c) := by
  -- both sides are the three put together at once
  have left : g.join (g.gather [a, b]) (g.gather [c]) = g.gather [a, b, c] :=
    join_gather (by simp [first, second]) (by simp [third])
  have right : g.join (g.gather [a]) (g.gather [b, c]) = g.gather [a, b, c] :=
    join_gather (by simp [first]) (by simp [second, third])
  rw [third.gather_singleton] at left
  rw [first.gather_singleton] at right
  exact left.trans right.symm

theorem join_empty_left (flat : g.IsFlat a) : g.join (g.group []) a = a := by
  have joined : g.join (g.gather []) (g.gather [a]) = g.gather [a] :=
    join_gather (by simp) (by simp [flat])
  rwa [gather_nil, flat.gather_singleton] at joined

theorem join_empty_right (flat : g.IsFlat a) : g.join a (g.group []) = a := by
  have joined : g.join (g.gather [a]) (g.gather []) = g.gather [a] :=
    join_gather (by simp [flat]) (by simp)
  rwa [gather_nil, flat.gather_singleton] at joined

theorem foldl_join_gather (before : ∀ a ∈ as, g.IsFlat a) (flat : ∀ b ∈ bs, g.IsFlat b) :
    bs.foldl g.join (g.gather as) = g.gather (as ++ bs) := by
  induction bs generalizing as with
  | nil => rw [List.foldl_nil, List.append_nil]
  | cons b bs ih =>
    obtain ⟨here, later⟩ := List.forall_mem_cons.mp flat
    have reached : ∀ a ∈ as ++ [b], g.IsFlat a :=
      List.forall_mem_append.mpr ⟨before, List.forall_mem_singleton.mpr here⟩
    rw [List.foldl_cons, join_gather_left before, ih reached later, List.append_assoc,
      List.singleton_append]

/-- Things put together one by one, from the first to the last. -/
theorem foldl_join (flat : ∀ a ∈ as, g.IsFlat a) : as.foldl g.join (g.group []) = g.gather as := by
  have nothing : ∀ a ∈ ([] : List α), g.IsFlat a := by simp
  rw [← gather_nil, foldl_join_gather nothing flat, List.nil_append]

/-- Things put together one by one, from the last to the first. -/
theorem foldr_join (flat : ∀ a ∈ as, g.IsFlat a) : as.foldr g.join (g.group []) = g.gather as := by
  induction as with
  | nil => rfl
  | cons a as ih =>
    obtain ⟨here, later⟩ := List.forall_mem_cons.mp flat
    have joined := join_gather (List.forall_mem_singleton.mpr here) later
    rw [here.gather_singleton] at joined
    rw [List.foldr_cons, ih later, joined, List.singleton_append]

end Grouping

end PhraseGraph
