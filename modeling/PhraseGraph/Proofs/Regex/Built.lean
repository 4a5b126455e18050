import PhraseGraph.Proofs.Regex.Repetitions
import PhraseGraph.Pattern.Encoding

/-!
# PhraseGraph.Proofs.Regex.Built

Expressions in the simple form that their builders give them.

What is built does not change if it is built once more from its parts or branches. So it makes no
difference whether parts are put together at once or in groups, nor whether branches are, as long as
nothing is taken out of the groups.

## Main statements

`Pattern.isBuilt_regex`: all expressions of patterns have this form.
`Regex.parts_inOrder`, `Regex.branches_oneOf`: the parts and branches that an expression is built
from. `IsBuilt.inOrder_singleton`, `IsBuilt.oneOf_singleton`: an expression is built from itself.
-/

namespace PhraseGraph

namespace Regex

/-- An expression in simple form: concatenations and choices are flat, none of them has a single
part, and nothing can be taken out of a choice. What is repeated is not looked into. -/
inductive IsBuilt : Regex → Prop
  | char (set : CharSet) : IsBuilt (.char set)
  | concat {es : List Regex} : es.length ≠ 1 → (∀ e ∈ es, e.parts = [e]) → (∀ e ∈ es, IsBuilt e) →
    IsBuilt (.concat es)
  | choice {es : List Regex} : oneOf es = .choice es → (∀ e ∈ es, e.branches = [e]) →
    (∀ e ∈ es, IsBuilt e) → IsBuilt (.choice es)
  | repeated (e : Regex) (least : Nat) (most : Option Nat) : IsBuilt (.repeated e least most)

variable {e : Regex} {es fs : List Regex}

theorem IsBuilt.parts (built : e.IsBuilt) : ∀ f ∈ e.parts, f.parts = [f] ∧ f.IsBuilt := by
  cases built with
  | concat _ flat each => exact fun f part => ⟨flat f part, each f part⟩
  | char set => exact List.forall_mem_singleton.mpr ⟨rfl, .char set⟩
  | choice same flat each => exact List.forall_mem_singleton.mpr ⟨rfl, .choice same flat each⟩
  | repeated e least most => exact List.forall_mem_singleton.mpr ⟨rfl, .repeated e least most⟩

theorem IsBuilt.branches (built : e.IsBuilt) : ∀ f ∈ e.branches, f.branches = [f] ∧ f.IsBuilt := by
  cases built with
  | choice _ flat each => exact fun f branch => ⟨flat f branch, each f branch⟩
  | char set => exact List.forall_mem_singleton.mpr ⟨rfl, .char set⟩
  | concat several flat each =>
    exact List.forall_mem_singleton.mpr ⟨rfl, .concat several flat each⟩
  | repeated e least most => exact List.forall_mem_singleton.mpr ⟨rfl, .repeated e least most⟩

theorem parts_of_isBuilt (built : ∀ e ∈ es, e.IsBuilt) :
    ∀ f ∈ es.flatMap parts, f.parts = [f] ∧ f.IsBuilt :=
  List.forall_mem_flatMap.mpr fun e inside => (built e inside).parts

theorem branches_of_isBuilt (built : ∀ e ∈ es, e.IsBuilt) :
    ∀ f ∈ es.flatMap branches, f.branches = [f] ∧ f.IsBuilt :=
  List.forall_mem_flatMap.mpr fun e inside => (built e inside).branches

/-! ### Concatenations -/

theorem parts_inOrder (built : ∀ e ∈ es, e.IsBuilt) : (inOrder es).parts = es.flatMap parts := by
  have flat := parts_of_isBuilt built
  rw [inOrder]
  split
  · next e single =>
    rw [single] at flat ⊢
    exact (flat e (List.mem_singleton_self e)).1
  · rfl

theorem isBuilt_inOrder (built : ∀ e ∈ es, e.IsBuilt) : (inOrder es).IsBuilt := by
  have each := parts_of_isBuilt built
  rw [inOrder]
  split
  · next e single => exact (each e (single ▸ List.mem_singleton_self e)).2
  · next several =>
    refine .concat (fun one => ?_) (fun e part => (each e part).1) fun e part => (each e part).2
    obtain ⟨e, single⟩ := List.length_eq_one_iff.mp one
    exact several e single

theorem inOrder_congr (same : es.flatMap parts = fs.flatMap parts) : inOrder es = inOrder fs := by
  rw [inOrder, inOrder, same]

theorem IsBuilt.inOrder_singleton (built : e.IsBuilt) : inOrder [e] = e := by
  cases built with
  | @concat es several _ =>
    rw [inOrder, List.flatMap_singleton, Regex.parts]
    split
    · exact absurd rfl several
    · rfl
  | _ => rfl

/-! ### Choices -/

theorem oneOf_eq (es : List Regex) : oneOf es =
    match es.flatMap branches with
    | [] => never
    | [e] => e
    | e :: others =>
      if (e :: others).all (· = never) then never
      else if sharedCount (e :: others) = 0 then .choice (e :: others)
      else inOrder (e.parts.take (sharedCount (e :: others)) ++
        [oneOf ((e :: others).map (dropParts (sharedCount (e :: others))))]) := by
  rw [oneOf]
  split
  · next flat => rw [flat]
  · next flat => rw [flat]
  · next several flat =>
    simp only [flat, dite_eq_ite]

/-- A choice depends on nothing but the branches. -/
theorem oneOf_congr (same : es.flatMap branches = fs.flatMap branches) : oneOf es = oneOf fs := by
  rw [oneOf_eq es, oneOf_eq fs, same]

/-- Branches that share nothing stay as they are, unless none of them can match. -/
theorem oneOf_of_unshared {others : List Regex} (flat : es.flatMap branches = e :: others)
    (several : others ≠ []) (some : ∃ f ∈ e :: others, f ≠ never)
    (unshared : sharedCount (e :: others) = 0) : oneOf es = .choice (e :: others) := by
  obtain ⟨f, inside, different⟩ := some
  have notAll : ¬(e :: others).all (· = never) = true := fun all =>
    different (of_decide_eq_true (List.all_eq_true.mp all f inside))
  rw [oneOf_eq, flat]
  cases others with
  | nil => exact absurd rfl several
  | cons g others => exact (if_neg notAll).trans (if_pos unshared)

theorem isBuilt_dropParts (built : e.IsBuilt) (n : Nat) : (dropParts n e).IsBuilt :=
  isBuilt_inOrder fun f part => (built.parts f (List.mem_of_mem_drop part)).2

theorem isBuilt_oneOf (built : ∀ e ∈ es, e.IsBuilt) : (oneOf es).IsBuilt := by
  fun_induction oneOf es with
  | case1 => exact .char _
  | case2 es e single =>
    exact (branches_of_isBuilt built e (single ▸ List.mem_singleton_self e)).2
  | case3 => exact .char _
  | case4 es e others several flat notAll unshared =>
    have each := branches_of_isBuilt built
    rw [flat] at each
    -- the branches are built from themselves again
    have own : (e :: others).flatMap branches = e :: others := by
      rw [List.flatMap_congr fun f inside => (each f inside).1, List.flatMap_singleton']
    refine .choice (oneOf_of_unshared own several ?_ unshared) (fun f inside => (each f inside).1)
      fun f inside => (each f inside).2
    by_contra none
    push Not at none
    exact notAll (List.all_eq_true.mpr fun f inside => decide_eq_true (none f inside))
  | case5 es e others several flat _ _ shared _ ih =>
    have each := branches_of_isBuilt built
    rw [flat] at each
    have rests : ∀ f ∈ (e :: others).map (dropParts shared), f.IsBuilt := by
      intro f member
      obtain ⟨g, inside, rfl⟩ := List.mem_map.mp member
      exact isBuilt_dropParts (each g inside).2 shared
    apply isBuilt_inOrder
    intro f member
    rcases List.mem_append.mp member with start | last
    · exact ((each e List.mem_cons_self).2.parts f (List.mem_of_mem_take start)).2
    · rw [List.mem_singleton] at last
      exact last ▸ ih rests

theorem IsBuilt.oneOf_singleton (built : e.IsBuilt) : oneOf [e] = e := by
  cases built with
  | @choice es same flat _ =>
    have own : [Regex.choice es].flatMap Regex.branches = es.flatMap Regex.branches := by
      rw [List.flatMap_singleton, Regex.branches, List.flatMap_congr flat, List.flatMap_singleton']
    rw [oneOf_congr own, same]
  | _ => rw [oneOf_eq]; rfl

/-- The branches that a choice was built from, if it took nothing out of them. -/
theorem branches_oneOf (built : ∀ e ∈ es, e.IsBuilt) (some : ∃ f ∈ es.flatMap branches, f ≠ never)
    (unshared : sharedCount (es.flatMap branches) = 0) :
    (oneOf es).branches = es.flatMap branches := by
  have each := branches_of_isBuilt built
  rcases shape : es.flatMap branches with _ | ⟨e, _ | ⟨f, others⟩⟩
  · simp [shape] at some
  · have single : oneOf es = e := by rw [oneOf_eq, shape]
    rw [single]
    exact (each e (shape ▸ List.mem_singleton_self e)).1
  · rw [shape] at some unshared
    rw [oneOf_of_unshared shape (List.cons_ne_nil _ _) some unshared, Regex.branches]

/-! ### Repetitions -/

theorem isBuilt_repeating (built : e.IsBuilt) (least : Nat) (most : Option Nat) :
    (repeating e least most).IsBuilt := by
  obtain ⟨least', most', forms, -⟩ := repeating_cases e least most
  rcases forms with ⟨form, -⟩ | ⟨form, -⟩ | form
  · rw [form, empty]
    exact .concat (by simp) (by simp) (by simp)
  · rwa [form]
  · rw [form]
    exact .repeated _ _ _

end Regex

/-! ### Expressions of patterns -/

namespace Pattern

open Regex (IsBuilt)

/-- The expression of a token is a row of characters and fields. -/
theorem exists_row (t : TokenPattern) : ∃ row, tokenRegex t = .inOrder row ∧
    ∀ e ∈ row, (∃ c, e = .char (.only c)) ∨ e = anyField := by
  refine ⟨_, rfl, ?_⟩
  have literal (cs : List Char) :
      ∀ e ∈ Regex.literal cs, (∃ c, e = .char (.only c)) ∨ e = anyField := by
    intro e member
    obtain ⟨c, -, rfl⟩ := List.mem_map.mp member
    exact Or.inl ⟨c, rfl⟩
  have field : ∀ e ∈ [anyField], (∃ c, e = .char (.only c)) ∨ e = anyField :=
    List.forall_mem_singleton.mpr (Or.inr rfl)
  have tag : ∀ e ∈ tagRegex t.tag, (∃ c, e = .char (.only c)) ∨ e = anyField := by
    cases t.tag with
    | any => exact field
    | exact tag => exact literal _
    | startsWith start => exact List.forall_mem_append.mpr ⟨literal _, field⟩
  have headword : ∀ e ∈ headwordRegex t.headword, (∃ c, e = .char (.only c)) ∨ e = anyField := by
    cases t.headword with
    | none => exact field
    | some text => exact literal _
  simp only [List.forall_mem_append]
  exact ⟨⟨⟨tag, literal _⟩, headword⟩, literal _⟩

theorem isBuilt_tokenRegex (t : TokenPattern) : (tokenRegex t).IsBuilt := by
  obtain ⟨row, same, plain⟩ := exists_row t
  rw [same]
  apply Regex.isBuilt_inOrder
  intro e member
  rcases plain e member with ⟨c, rfl⟩ | rfl
  · exact .char _
  · exact Regex.isBuilt_repeating (.char _) 0 none

mutual

theorem isBuilt_regex : ∀ p : Pattern, p.regex.IsBuilt
  | .token t => by
    rw [regex]
    exact isBuilt_tokenRegex t
  | .sequence ps => by
    rw [regex]
    exact Regex.isBuilt_inOrder (isBuilt_regexes ps)
  | .anyOf ps => by
    rw [regex]
    exact Regex.isBuilt_oneOf (isBuilt_regexes ps)
  | .optional p => by
    rw [regex]
    exact Regex.isBuilt_repeating (isBuilt_regex p) 0 (some 1)
  | .repeated p least most => by
    rw [regex]
    exact Regex.isBuilt_repeating (isBuilt_regex p) least most

theorem isBuilt_regexes : ∀ ps : List Pattern, ∀ e ∈ regexes ps, e.IsBuilt
  | [] => by simp
  | p :: ps => by
    rw [regexes]
    exact List.forall_mem_cons.mpr ⟨isBuilt_regex p, isBuilt_regexes ps⟩

end

end Pattern

end PhraseGraph
