import Mathlib.Algebra.BigOperators.Ring.List
import Mathlib.Computability.Language
import Mathlib.Order.CompletePartialOrder
import PhraseGraph.Regex.Builders

/-!
# PhraseGraph.Proofs.Regex.Language

The texts that an expression matches.

## Main statements

`Regex.language_inOrder`, `Regex.language_oneOf` and `Regex.language_repeating`: the builders match
what the plain constructors match, although they flatten, take out what branches share and write
out trivial repetitions.
-/

namespace PhraseGraph

open Computability

variable {α : Type}

theorem mem_sum_map {ι : Type} {f : ι → Language α} {is : List ι} {w : List α} :
    w ∈ (is.map f).sum ↔ ∃ i ∈ is, w ∈ f i := by
  induction is with
  | nil => simp
  | cons i is ih => rw [List.map_cons, List.sum_cons, Language.mem_add, ih, List.exists_mem_cons_iff]

/-! ### Copies of a language -/

/-- At most so many copies, each of which contains the next one. -/
def atMost (l : Language α) : Nat → Language α
  | 0 => 1
  | n + 1 => l * atMost l n + 1

/-- At least `least` copies and at most `most`, without end if that is absent. -/
def copies (l : Language α) (least : Nat) (most : Option Nat) : Language α :=
  l ^ least * match most with
    | some most => atMost l (most - least)
    | none => l∗

theorem mem_atMost {l : Language α} {n : Nat} {w : List α} :
    w ∈ atMost l n ↔ ∃ k ≤ n, w ∈ l ^ k := by
  induction n generalizing w with
  | zero => simp [atMost]
  | succ n ih =>
    simp only [atMost, Language.mem_add, Language.mem_mul, Language.mem_one, ih]
    constructor
    · rintro (⟨u, hu, v, ⟨k, bound, hv⟩, rfl⟩ | rfl)
      · refine ⟨k + 1, Nat.succ_le_succ bound, ?_⟩
        rw [pow_succ']
        exact Language.append_mem_mul hu hv
      · exact ⟨0, Nat.zero_le _, by simp⟩
    · rintro ⟨k, bound, hw⟩
      cases k with
      | zero => exact Or.inr (by simpa using hw)
      | succ k =>
        rw [pow_succ', Language.mem_mul] at hw
        obtain ⟨u, hu, v, hv, rfl⟩ := hw
        exact Or.inl ⟨u, hu, v, ⟨k, Nat.le_of_succ_le_succ bound, hv⟩, rfl⟩

theorem mem_copies {l : Language α} {least : Nat} {most : Option Nat} {w : List α}
    (inOrder : ∀ m ∈ most, least ≤ m) :
    w ∈ copies l least most ↔ ∃ k, least ≤ k ∧ (∀ m ∈ most, k ≤ m) ∧ w ∈ l ^ k := by
  have split (extra : Nat) : w ∈ l ^ least * l ^ extra ↔ w ∈ l ^ (least + extra) := by
    rw [pow_add]
  cases most with
  | none =>
    simp only [copies, Language.kstar_eq_iSup_pow, Language.mul_iSup, Language.mem_iSup, split]
    constructor
    · rintro ⟨extra, hw⟩
      exact ⟨least + extra, Nat.le_add_right _ _, by simp, hw⟩
    · rintro ⟨k, bound, -, hw⟩
      exact ⟨k - least, by rwa [Nat.add_sub_cancel' bound]⟩
  | some most =>
    have bounds : least ≤ most := inOrder most rfl
    simp only [copies, Language.mem_mul, mem_atMost]
    constructor
    · rintro ⟨u, hu, v, ⟨extra, few, hv⟩, rfl⟩
      refine ⟨least + extra, Nat.le_add_right _ _, ?_, (split extra).mp (Language.append_mem_mul hu hv)⟩
      intro m bounded
      cases bounded
      omega
    · rintro ⟨k, bound, few, hw⟩
      have few := few most rfl
      rw [← Nat.add_sub_cancel' bound, pow_add, Language.mem_mul] at hw
      obtain ⟨u, hu, v, hv, rfl⟩ := hw
      exact ⟨u, hu, v, ⟨k - least, by omega, hv⟩, rfl⟩

theorem atMost_of_le_one {l : Language α} (only : l ≤ 1) (n : Nat) : atMost l n = 1 := by
  induction n with
  | zero => rfl
  | succ n ih => rw [atMost, ih, mul_one, (Language.le_iff l 1).mp only]

/-- Of a language with no text but the empty one, one copy is as good as several. -/
theorem copies_of_le_one {l : Language α} (only : l ≤ 1) (least : Nat) (most : Option Nat) :
    copies l least most = l ^ min least 1 := by
  have extra : copies l least most = l ^ least := by
    cases most with
    | none => rw [copies, kstar_eq_one.mpr only, mul_one]
    | some most => rw [copies, atMost_of_le_one only, mul_one]
  -- `l` is empty or holds the empty text, so that it is idempotent
  have square : l * l = l := by
    refine le_antisymm ((mul_le_mul_right only l).trans_eq (mul_one l)) fun w member => ?_
    have empty : w = [] := only member
    subst empty
    exact Language.append_mem_mul member member
  have power (n : Nat) : l ^ (n + 1) = l := by
    induction n with
    | zero => rw [zero_add, pow_one]
    | succ n ih => rw [pow_succ, ih, square]
  rw [extra]
  cases least with
  | zero => rfl
  | succ least => rw [power, Nat.min_eq_right (Nat.le_add_left 1 least), pow_one]

namespace Regex

/-! ### Languages of expressions -/

mutual

/-- The texts that an expression matches as a whole. -/
def language : Regex → Language Char
  | .char set => {w | ∃ c, set.accepts c = true ∧ w = [c]}
  | .concat es => (languages es).prod
  | .choice es => (languages es).sum
  | .repeated e least most => copies (language e) least most

def languages : List Regex → List (Language Char)
  | [] => []
  | e :: es => language e :: languages es

end

@[simp] theorem languages_eq_map (es : List Regex) : languages es = es.map language := by
  induction es with
  | nil => rfl
  | cons e es ih => simp [languages, ih]

theorem mem_language_char {set : CharSet} {w : List Char} :
    w ∈ (char set).language ↔ ∃ c, set.accepts c = true ∧ w = [c] := by
  rw [language]
  rfl

@[simp] theorem language_concat (es : List Regex) :
    (concat es).language = (es.map language).prod := by
  rw [language, languages_eq_map]

@[simp] theorem language_choice (es : List Regex) :
    (choice es).language = (es.map language).sum := by
  rw [language, languages_eq_map]

@[simp] theorem language_repeated (e : Regex) (least : Nat) (most : Option Nat) :
    (repeated e least most).language = copies e.language least most := by
  rw [language]

theorem mem_language_choice {es : List Regex} {w : List Char} :
    w ∈ (choice es).language ↔ ∃ e ∈ es, w ∈ e.language := by
  rw [language_choice, mem_sum_map]

/-! ### Builders -/

theorem language_parts (e : Regex) : (e.parts.map language).prod = e.language := by
  cases e <;> simp [parts]

theorem language_flatMap_parts (es : List Regex) :
    ((es.flatMap parts).map language).prod = (es.map language).prod := by
  induction es with
  | nil => rfl
  | cons e es ih => simp [ih, language_parts]

theorem language_inOrder (es : List Regex) :
    (inOrder es).language = (es.map language).prod := by
  rw [← language_flatMap_parts, inOrder]
  split
  · next e single => simp [single]
  · simp

theorem language_branches (e : Regex) : (e.branches.map language).sum = e.language := by
  cases e <;> simp [branches]

theorem language_flatMap_branches (es : List Regex) :
    ((es.flatMap branches).map language).sum = (es.map language).sum := by
  induction es with
  | nil => rfl
  | cons e es ih => simp [ih, language_branches]

theorem language_never : never.language = 0 := by
  ext w
  simp [never, mem_language_char, CharSet.accepts]

theorem language_dropParts {n : Nat} {e : Regex} {shared : List Regex}
    (starts : e.parts.take n = shared) :
    e.language = (shared.map language).prod * (dropParts n e).language := by
  rw [dropParts, language_inOrder, ← starts, ← List.prod_append, ← List.map_append,
    List.take_append_drop, language_parts]

/-! ### What the branches of a choice share -/

theorem flatten_runs (es : List Regex) : (runs es).flatten = es := by
  induction es with
  | nil => rfl
  | cons e es ih =>
    unfold runs
    split
    · next d run rest split_runs =>
      -- a character joins the run behind it, if that is one of characters
      rw [split_runs] at ih
      split <;> simp [← ih]
    · simp [ih]

theorem isPrefix_commonStart {α : Type} [DecidableEq α] (as bs : List α) :
    commonStart as bs <+: as ∧ commonStart as bs <+: bs := by
  fun_induction commonStart as bs with
  | case1 as b bs ih => exact ⟨(List.prefix_cons_inj b).mpr ih.1, (List.prefix_cons_inj b).mpr ih.2⟩
  | case2 => simp
  | case3 => simp

theorem isPrefix_foldl_commonStart {α : Type} [DecidableEq α] (row : List α) (rows : List (List α)) :
    ∀ r ∈ row :: rows, rows.foldl commonStart row <+: r := by
  induction rows generalizing row with
  | nil => simp
  | cons next rows ih =>
    -- the fold goes on from what the first two rows have in common
    have step := ih (commonStart row next)
    have start := step _ List.mem_cons_self
    intro r member
    rcases List.mem_cons.mp member with rfl | later
    · exact start.trans (isPrefix_commonStart r next).1
    · rcases List.mem_cons.mp later with rfl | later
      · exact start.trans (isPrefix_commonStart row r).2
      · exact step r (List.mem_cons_of_mem _ later)

theorem isPrefix_sharedRuns (rows : List (List (List Regex))) :
    ∀ row ∈ rows, sharedRuns rows <+: row := by
  intro row member
  unfold sharedRuns
  split
  · simp at member
  · split
    · exact isPrefix_foldl_commonStart _ _ row member
    · exact List.nil_prefix

theorem take_sharedCount {es : List Regex} {e : Regex} (member : e ∈ es) :
    e.parts.take (sharedCount es) = (sharedRuns (es.map fun e => runs e.parts)).flatten := by
  have row : runs e.parts ∈ es.map fun e => runs e.parts := List.mem_map.mpr ⟨e, member, rfl⟩
  have starts := (isPrefix_sharedRuns _ _ row).flatten
  rw [flatten_runs] at starts
  exact (List.prefix_iff_eq_take.mp starts).symm

/-- All expressions start with the parts that are shared, in the same order. -/
theorem take_sharedCount_eq {es : List Regex} {e f : Regex} (first : e ∈ es) (second : f ∈ es) :
    e.parts.take (sharedCount es) = f.parts.take (sharedCount es) := by
  rw [take_sharedCount first, take_sharedCount second]

theorem language_oneOf (es : List Regex) : (oneOf es).language = (es.map language).sum := by
  fun_induction oneOf es with
  | case1 es flat => rw [← language_flatMap_branches, flat]; exact language_never
  | case2 es e flat => rw [← language_flatMap_branches, flat]; simp
  | case3 es e others _ flat nothing =>
    -- what is not the first branch is `never` as well
    rw [← language_flatMap_branches, flat, language_never]
    symm
    apply List.sum_eq_zero
    intro l member
    obtain ⟨f, inside, rfl⟩ := List.mem_map.mp member
    rw [of_decide_eq_true (List.all_eq_true.mp nothing f inside), language_never]
  | case4 es e others _ flat => rw [← language_flatMap_branches, flat, language_choice]
  | case5 es e others _ flat _ _ shared _ ih =>
    -- multiplication distributes over the branches that are left
    have each : ∀ f ∈ e :: others,
        f.language = ((e.parts.take shared).map language).prod * (dropParts shared f).language := by
      intro f member
      apply language_dropParts
      exact take_sharedCount_eq member List.mem_cons_self
    rw [language_inOrder, List.map_append, List.prod_append, List.map_singleton, List.prod_singleton,
      ih, ← language_flatMap_branches es, flat, List.map_congr_left each, List.map_map,
      List.sum_map_mul_left]
    rfl

end Regex

end PhraseGraph
