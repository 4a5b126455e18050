import PhraseGraph.Proofs.Regex.Priority

/-!
# PhraseGraph.Proofs.Regex.Sharing

What the builders of expressions keep of the order of backtracking.

Flattening keeps it, and so does writing out trivial repetitions. Taking out what branches share
does not: `xa` or `xb` tries every way to match `x` with `a` before it tries any with `b`, and `x`,
then `a` or `b`, tries both for each of them. What comes first is the same if what is shared ends in
no more than one place from which a branch can go on.

## Main statements

`Regex.ways_inOrder`, `Regex.ways_repeating`, `Regex.ways_oneOf`.
-/

namespace PhraseGraph.Regex

/-! ### Sequences and repetitions -/

theorem ways_parts (e : Regex) : Ways.inOrder (e.parts.map ways) = e.ways := by
  cases e with
  | concat es => rw [parts, ways_concat]
  | char => exact Ways.andThen_stay _
  | choice => exact Ways.andThen_stay _
  | repeated => exact Ways.andThen_stay _

theorem ways_inOrder (es : List Regex) : (inOrder es).ways = Ways.inOrder (es.map ways) := by
  have flat : Ways.inOrder ((es.flatMap parts).map ways) = Ways.inOrder (es.map ways) := by
    induction es with
    | nil => rfl
    | cons e es ih =>
      rw [List.flatMap_cons, List.map_append, Ways.inOrder_append, ih, ways_parts, List.map_cons,
        Ways.inOrder_cons]
  rw [← flat, inOrder]
  split
  · next e single => rw [single]; exact (Ways.andThen_stay _).symm
  · rw [ways_concat]

theorem ways_branches (e : Regex) : Ways.oneOf (e.branches.map ways) = e.ways := by
  cases e with
  | choice es => rw [branches, ways_choice]
  | char => exact Ways.orElse_fail _
  | concat => exact Ways.orElse_fail _
  | repeated => exact Ways.orElse_fail _

theorem ways_flatMap_branches (es : List Regex) :
    Ways.oneOf ((es.flatMap branches).map ways) = Ways.oneOf (es.map ways) := by
  induction es with
  | nil => rfl
  | cons e es ih =>
    rw [List.flatMap_cons, List.map_append, Ways.oneOf_append, ih, ways_branches, List.map_cons,
      Ways.oneOf_cons]

theorem ways_dropParts {n : Nat} {e : Regex} {shared : List Regex}
    (starts : e.parts.take n = shared) :
    e.ways = (Ways.inOrder (shared.map ways)).andThen (dropParts n e).ways := by
  rw [dropParts, ways_inOrder, ← starts, ← Ways.inOrder_append, ← List.map_append,
    List.take_append_drop, ways_parts]

/-- Copies of what matches the empty text only are no more than one. -/
theorem ways_repeating {e : Regex} (bounded : e.IsBounded) (least : Nat) (most : Option Nat)
    (w : List Char) : SameFirst ((repeating e least most).ways w) (e.ways.copies least most w) := by
  obtain ⟨least', most', forms, bounds⟩ := repeating_cases e least most
  rcases bounds with ⟨_, rfl, rfl⟩ | ⟨trivial, -, -⟩
  · apply SameFirst.of_eq
    rcases forms with ⟨form, rfl, rfl⟩ | ⟨form, rfl, rfl⟩ | form
    · rw [form, empty, ways_concat]
      simp [Ways.copies, Ways.times, Ways.upTo, Ways.inOrder]
    · rw [form]
      simp [Ways.copies, Ways.times, Ways.upTo]
    · rw [form, ways_repeated]
  · -- both match the empty text or nothing
    have only := le_one_of_onlyEmpty e bounded trivial
    have written := language_repeating bounded least most
    have left := matches_ways (repeating e least most) w
    have right := (matches_ways e).copies least most w
    have nothing : copies e.language least most ≤ 1 := by
      rw [copies_of_le_one only]
      exact pow_le_one' only _
    rw [written] at left
    have stays (n : Nat) (reached : n ≤ w.length ∧ w.take n ∈ copies e.language least most) :
        n = 0 := by
      rcases List.take_eq_nil_iff.mp (nothing reached.2) with none | none
      · exact none
      · rw [none] at reached
        exact Nat.le_zero.mp reached.1
    refine SameFirst.of_unique (fun n member => stays n ((left n).mp member))
      (fun n member => stays n ((right n).mp member)) ?_
    simp only [List.eq_nil_iff_forall_not_mem, left, right]

/-! ### Choices -/

/-- What is shared ends in no more than one place of a text from which a branch can go on. -/
def Settles (shared : Ways Char) (branches : List (Ways Char)) : Prop :=
  ∀ w, ∀ n ∈ shared w, ∀ m ∈ shared w,
    Ways.oneOf branches (w.drop n) ≠ [] → Ways.oneOf branches (w.drop m) ≠ [] → n = m

/-- What branches share may be tried once for all of them, if it settles where they go on. -/
theorem Settles.andThen_oneOf {shared : Ways Char} {branches : List (Ways Char)}
    (settles : Settles shared branches) (w : List Char) :
    SameFirst (shared.andThen (Ways.oneOf branches) w)
      (Ways.oneOf (branches.map shared.andThen) w) := by
  have further (n : Nat) (none : Ways.oneOf branches (w.drop n) = []) :
      ∀ f ∈ branches, f (w.drop n) = [] := by
    rw [Ways.oneOf_apply, List.flatMap_eq_nil_iff] at none
    exact none
  have branchwise : Ways.oneOf (branches.map shared.andThen) w = branches.flatMap fun f =>
      (shared w).flatMap fun n => (f (w.drop n)).map (n + ·) := by
    rw [Ways.oneOf_apply, List.flatMap_map]
    rfl
  rw [branchwise, Ways.andThen]
  -- either all goes on from one place, or no branch goes on from anywhere
  by_cases settled : ∃ n ∈ shared w, Ways.oneOf branches (w.drop n) ≠ []
  · obtain ⟨n, member, goesOn⟩ := settled
    have others (m : Nat) (inside : m ∈ shared w) (different : m ≠ n) :
        Ways.oneOf branches (w.drop m) = [] := by
      by_contra some
      exact different (settles w m inside n member some goesOn)
    have left := SameFirst.flatMap_of_unique
      (f := fun n => (Ways.oneOf branches (w.drop n)).map (n + ·)) member
        fun m inside different => by rw [others m inside different]; rfl
    have right := SameFirst.flatMap_congr fun f (inside : f ∈ branches) =>
      SameFirst.flatMap_of_unique (f := fun n => (f (w.drop n)).map (n + ·)) member
        fun m shared different => by rw [further m (others m shared different) f inside]; rfl
    have middle : (Ways.oneOf branches (w.drop n)).map (n + ·) =
        branches.flatMap fun f => (f (w.drop n)).map (n + ·) := by
      rw [Ways.oneOf_apply, List.map_flatMap]
    exact (left.trans (.of_eq middle)).trans right.symm
  · push Not at settled
    apply SameFirst.of_eq
    have left : ((shared w).flatMap fun n => (Ways.oneOf branches (w.drop n)).map (n + ·)) = [] := by
      rw [List.flatMap_eq_nil_iff]
      intro n member
      rw [settled n member]
      rfl
    rw [left]
    symm
    simp only [List.flatMap_eq_nil_iff]
    intro f inside n member
    rw [further n (settled n member) f inside]
    rfl

/-- Whatever the branches of a choice share when it is built, also after something has been taken
out of them, settles where they go on. -/
inductive SharesSettled : List Regex → Prop
  | few {es : List Regex} : (es.flatMap branches).length ≤ 1 → SharesSettled es
  | unshared {es : List Regex} : sharedCount (es.flatMap branches) = 0 → SharesSettled es
  | shared {es : List Regex} {e : Regex} {others : List Regex} :
    es.flatMap branches = e :: others →
    Settles (Ways.inOrder ((e.parts.take (sharedCount (e :: others))).map ways))
      (((e :: others).map (dropParts (sharedCount (e :: others)))).map ways) →
    SharesSettled ((e :: others).map (dropParts (sharedCount (e :: others)))) → SharesSettled es

theorem ways_never : never.ways = Ways.fail := by
  funext w
  cases w <;> simp [never, Ways.one, CharSet.accepts, Ways.fail]

/-- A choice has the ways of its branches, the earlier ones first. -/
theorem ways_oneOf {es : List Regex} (settled : SharesSettled es) (w : List Char) :
    SameFirst ((oneOf es).ways w) (Ways.oneOf (es.map ways) w) := by
  rw [← ways_flatMap_branches]
  fun_induction oneOf es generalizing w with
  | case1 es flat =>
    rw [flat, ways_never]
    exact SameFirst.refl []
  | case2 es e flat =>
    rw [flat]
    exact SameFirst.of_eq (congrFun (Ways.orElse_fail _).symm w)
  | case3 es e others _ flat nothing =>
    rw [flat, ways_never, Ways.oneOf_apply]
    apply SameFirst.of_eq
    symm
    rw [List.flatMap_map, Ways.fail, List.flatMap_eq_nil_iff]
    intro f inside
    rw [of_decide_eq_true (List.all_eq_true.mp nothing f inside), ways_never]
    rfl
  | case4 es e others _ flat =>
    rw [flat, ways_choice]
    exact SameFirst.refl _
  | case5 es e others several flat _ some shared _ ih =>
    cases settled with
    | few small =>
      rw [flat, List.length_cons] at small
      exact absurd (List.length_eq_zero_iff.mp (by omega)) several
    | unshared none => exact absurd (flat ▸ none) some
    | shared flat' settles rest =>
      rw [flat] at flat'
      obtain ⟨rfl, rfl⟩ := List.cons.inj flat'
      have each : ∀ f ∈ e :: others, f.ways =
          (Ways.inOrder ((e.parts.take shared).map ways)).andThen (dropParts shared f).ways := by
        intro f member
        apply ways_dropParts
        exact take_sharedCount_eq member List.mem_cons_self
      have branchwise : (((e :: others).map (dropParts shared)).map ways).map
          (Ways.inOrder ((e.parts.take shared).map ways)).andThen = (e :: others).map ways := by
        rw [List.map_map, List.map_map]
        exact List.map_congr_left fun f member => (each f member).symm
      -- the branches that are left are a choice of their own
      have inner (v : List Char) := ih rest v
      simp only [ways_flatMap_branches] at inner
      rw [ways_inOrder, List.map_append, Ways.inOrder_append, ways_flatMap_branches,
        List.map_singleton, ← ways_flatMap_branches es, flat, ← branchwise]
      have last (f : Ways Char) : Ways.inOrder [f] = f := Ways.andThen_stay f
      rw [last]
      refine SameFirst.trans ?_ (settles.andThen_oneOf w)
      exact SameFirst.flatMap_congr fun n _ => (inner (w.drop n)).map (n + ·)

end PhraseGraph.Regex
