import Mathlib.Algebra.Order.Monoid.Unbundled.Pow
import PhraseGraph.Proofs.Regex.Language

/-!
# PhraseGraph.Proofs.Regex.Repetitions

Conditions on the repetitions inside an expression, and that the builders keep them.

## Main statements

`Regex.language_repeating`: a repetition matches copies of its body, also where the copies are
written out because the body matches nothing but the empty text.
-/

namespace PhraseGraph.Regex

open Computability

variable {holds : Regex → Nat → Option Nat → Prop} {e : Regex} {es : List Regex}

mutual

/-- Every repetition inside the expression meets the condition on its body and its bounds. -/
def EachRepetition (holds : Regex → Nat → Option Nat → Prop) : Regex → Prop
  | .char _ => True
  | .concat es => EachRepetitionAll holds es
  | .choice es => EachRepetitionAll holds es
  | .repeated e least most => holds e least most ∧ EachRepetition holds e

def EachRepetitionAll (holds : Regex → Nat → Option Nat → Prop) : List Regex → Prop
  | [] => True
  | e :: es => EachRepetition holds e ∧ EachRepetitionAll holds es

end

/-- The bounds of all repetitions are in order. -/
def IsBounded (e : Regex) : Prop := e.EachRepetition fun _ least most => ∀ m ∈ most, least ≤ m

theorem eachRepetitionAll_iff (es : List Regex) :
    EachRepetitionAll holds es ↔ ∀ e ∈ es, e.EachRepetition holds := by
  induction es with
  | nil => simp [EachRepetitionAll]
  | cons e es ih => simp [EachRepetitionAll, ih]

@[simp] theorem eachRepetition_char (set : CharSet) : (char set).EachRepetition holds := by
  simp [EachRepetition]

@[simp] theorem eachRepetition_concat :
    (concat es).EachRepetition holds ↔ ∀ e ∈ es, e.EachRepetition holds := by
  simp [EachRepetition, eachRepetitionAll_iff]

@[simp] theorem eachRepetition_choice :
    (choice es).EachRepetition holds ↔ ∀ e ∈ es, e.EachRepetition holds := by
  simp [EachRepetition, eachRepetitionAll_iff]

@[simp] theorem eachRepetition_repeated {least : Nat} {most : Option Nat} :
    (repeated e least most).EachRepetition holds ↔ holds e least most ∧ e.EachRepetition holds := by
  simp [EachRepetition]

/-! ### Builders keep conditions -/

theorem eachRepetition_parts : (∀ f ∈ e.parts, f.EachRepetition holds) ↔ e.EachRepetition holds := by
  cases e <;> simp [parts]

theorem eachRepetition_branches :
    (∀ f ∈ e.branches, f.EachRepetition holds) ↔ e.EachRepetition holds := by
  cases e <;> simp [branches]

theorem eachRepetition_inOrder :
    (inOrder es).EachRepetition holds ↔ ∀ e ∈ es, e.EachRepetition holds := by
  have flat : (∀ f ∈ es.flatMap parts, f.EachRepetition holds) ↔
      ∀ e ∈ es, e.EachRepetition holds := by
    simp only [List.mem_flatMap]
    constructor
    · intro all e member
      exact eachRepetition_parts.mp fun f part => all f ⟨e, member, part⟩
    · rintro all f ⟨e, member, part⟩
      exact eachRepetition_parts.mpr (all e member) f part
  rw [← flat, inOrder]
  split
  · next e single => simp [single]
  · simp

theorem eachRepetition_dropParts {n : Nat} (each : e.EachRepetition holds) :
    (dropParts n e).EachRepetition holds :=
  eachRepetition_inOrder.mpr fun f member =>
    eachRepetition_parts.mpr each f (List.mem_of_mem_drop member)

theorem eachRepetition_oneOf (each : ∀ e ∈ es, e.EachRepetition holds) :
    (oneOf es).EachRepetition holds := by
  have flat : ∀ f ∈ es.flatMap branches, f.EachRepetition holds := by
    intro f member
    obtain ⟨e, inside, branch⟩ := List.mem_flatMap.mp member
    exact eachRepetition_branches.mpr (each e inside) f branch
  fun_induction oneOf es with
  | case1 => exact eachRepetition_char _
  | case2 es e single => exact flat e (single ▸ List.mem_singleton_self e)
  | case3 => exact eachRepetition_char _
  | case4 es e others _ split =>
    rw [split] at flat
    exact eachRepetition_choice.mpr flat
  | case5 es e others _ split _ _ shared _ ih =>
    rw [split] at flat
    -- the induction is on the branches behind what is shared
    have rests : ∀ f ∈ (e :: others).map (dropParts shared), f.EachRepetition holds := by
      intro f member
      obtain ⟨g, inside, rfl⟩ := List.mem_map.mp member
      exact eachRepetition_dropParts (flat g inside)
    rw [eachRepetition_inOrder]
    intro f member
    rcases List.mem_append.mp member with start | last
    · exact eachRepetition_parts.mpr (flat e List.mem_cons_self) f (List.mem_of_mem_take start)
    · rw [List.mem_singleton] at last
      subst last
      apply ih rests
      intro f member
      obtain ⟨g, inside, branch⟩ := List.mem_flatMap.mp member
      exact eachRepetition_branches.mpr (rests g inside) f branch

theorem eachRepetition_literal (cs : List Char) :
    ∀ e ∈ literal cs, e.EachRepetition holds := by
  intro e member
  obtain ⟨c, _, rfl⟩ := List.mem_map.mp member
  exact eachRepetition_char _

/-! ### Repetitions -/

/-- The three forms of a repetition, with the bounds that it comes to. -/
theorem repeating_cases (e : Regex) (least : Nat) (most : Option Nat) :
    ∃ least' most',
      (repeating e least most = empty ∧ least' = 0 ∧ most' = some 0 ∨
        repeating e least most = e ∧ least' = 1 ∧ most' = some 1 ∨
        repeating e least most = repeated e least' most') ∧
      (e.onlyEmpty = false ∧ least' = least ∧ most' = most ∨
        e.onlyEmpty = true ∧ least' = min least 1 ∧ most' = some (min (most.getD 1) 1)) := by
  -- the bounds that are left decide whether the repetition is written out
  have rebuilt (least : Nat) (most : Option Nat) (f : Regex)
      (given : (if least = 0 ∧ most = some 0 then empty
        else if least = 1 ∧ most = some 1 then e else repeated e least most) = f) :
      f = empty ∧ least = 0 ∧ most = some 0 ∨ f = e ∧ least = 1 ∧ most = some 1 ∨
        f = repeated e least most := by
    split at given
    · next none_left => exact Or.inl ⟨given.symm, none_left⟩
    · split at given
      · next one => exact Or.inr (Or.inl ⟨given.symm, one⟩)
      · exact Or.inr (Or.inr given.symm)
  cases trivial : e.onlyEmpty with
  | false =>
    refine ⟨least, most, rebuilt least most _ ?_, Or.inl ⟨rfl, rfl, rfl⟩⟩
    simp [repeating, trivial]
  | true =>
    refine ⟨min least 1, some (min (most.getD 1) 1), rebuilt _ _ _ ?_, Or.inr ⟨rfl, rfl, rfl⟩⟩
    simp [repeating, trivial]

theorem eachRepetition_repeating {least : Nat} {most : Option Nat}
    (inside : e.EachRepetition holds) (kept : e.onlyEmpty = false → holds e least most)
    (reduced : e.onlyEmpty = true → holds e (min least 1) (some (min (most.getD 1) 1))) :
    (repeating e least most).EachRepetition holds := by
  obtain ⟨least', most', forms, bounds⟩ := repeating_cases e least most
  have condition : holds e least' most' := by
    rcases bounds with ⟨nontrivial, rfl, rfl⟩ | ⟨trivial, rfl, rfl⟩
    · exact kept nontrivial
    · exact reduced trivial
  rcases forms with ⟨form, -⟩ | ⟨form, -⟩ | form
  · rw [form, empty, eachRepetition_concat]
    simp
  · rwa [form]
  · rw [form, eachRepetition_repeated]
    exact ⟨condition, inside⟩

theorem isBounded_repeating {least : Nat} {most : Option Nat} (inside : e.IsBounded)
    (bounds : ∀ m ∈ most, least ≤ m) : (repeating e least most).IsBounded := by
  apply eachRepetition_repeating inside
  · exact fun _ => bounds
  · rintro - m ⟨⟩
    cases most with
    | none => exact Nat.min_le_right _ _
    | some most =>
      have inOrder := bounds most rfl
      simp only [Option.getD_some]
      omega

mutual

theorem le_one_of_onlyEmpty : ∀ e : Regex, e.IsBounded → e.onlyEmpty = true → e.language ≤ 1
  | .char _, _, trivial => by simp [onlyEmpty] at trivial
  | .concat es, bounded, trivial => by
    rw [language_concat]
    exact prod_le_one_of_onlyEmpty es (eachRepetition_concat.mp bounded)
      (by simpa only [onlyEmpty] using trivial)
  | .choice es, bounded, trivial => by
    rw [language_choice]
    exact sum_le_one_of_onlyEmpty es (eachRepetition_choice.mp bounded)
      (by simpa only [onlyEmpty] using trivial)
  | .repeated e least most, bounded, trivial => by
    obtain ⟨inOrder, inside⟩ := eachRepetition_repeated.mp bounded
    rw [language_repeated]
    simp only [onlyEmpty, Bool.or_eq_true, beq_iff_eq] at trivial
    rcases trivial with trivial | rfl
    · rw [copies_of_le_one (le_one_of_onlyEmpty e inside trivial)]
      exact pow_le_one' (le_one_of_onlyEmpty e inside trivial) _
    · -- a body that may be anything, but no copy of it
      have none_at_least : least = 0 := Nat.le_zero.mp (inOrder 0 rfl)
      simp [none_at_least, copies, atMost]

theorem prod_le_one_of_onlyEmpty : ∀ es : List Regex, (∀ e ∈ es, e.IsBounded) →
    onlyEmptyAll es = true → (es.map language).prod ≤ 1
  | [], _, _ => le_rfl
  | e :: es, bounded, trivial => by
    simp only [onlyEmptyAll, Bool.and_eq_true] at trivial
    rw [List.map_cons, List.prod_cons]
    exact mul_le_one' (le_one_of_onlyEmpty e (bounded e List.mem_cons_self) trivial.1)
      (prod_le_one_of_onlyEmpty es (fun f later => bounded f (List.mem_cons_of_mem e later)) trivial.2)

theorem sum_le_one_of_onlyEmpty : ∀ es : List Regex, (∀ e ∈ es, e.IsBounded) →
    onlyEmptyAll es = true → (es.map language).sum ≤ 1
  | [], _, _ => by
    rw [List.map_nil, List.sum_nil]
    exact fun w member => (Language.notMem_zero w member).elim
  | e :: es, bounded, trivial => by
    simp only [onlyEmptyAll, Bool.and_eq_true] at trivial
    rw [List.map_cons, List.sum_cons]
    exact sup_le (le_one_of_onlyEmpty e (bounded e List.mem_cons_self) trivial.1)
      (sum_le_one_of_onlyEmpty es (fun f later => bounded f (List.mem_cons_of_mem e later)) trivial.2)

end

/-- A repetition matches copies of its body. -/
theorem language_repeating (bounded : e.IsBounded) (least : Nat) (most : Option Nat) :
    (repeating e least most).language = copies e.language least most := by
  obtain ⟨least', most', forms, bounds⟩ := repeating_cases e least most
  have written : (repeating e least most).language = copies e.language least' most' := by
    rcases forms with ⟨form, rfl, rfl⟩ | ⟨form, rfl, rfl⟩ | form
    · rw [form]; simp [empty, copies, atMost]
    · rw [form]; simp [copies, atMost]
    · rw [form, language_repeated]
  rcases bounds with ⟨_, rfl, rfl⟩ | ⟨trivial, rfl, rfl⟩
  · exact written
  · -- one copy of an empty body does for all
    have only := le_one_of_onlyEmpty e bounded trivial
    rw [written, copies_of_le_one only, copies_of_le_one only, min_assoc, min_self]

end PhraseGraph.Regex
