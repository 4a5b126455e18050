import Mathlib.Algebra.Order.BigOperators.Group.List
import Mathlib.Algebra.Order.Group.Nat
import PhraseGraph.Proofs.Pattern.Priority

/-!
# PhraseGraph.Proofs.Pattern.Rows

Where alternatives share nothing but pieces of tokens, it is settled where they go on.

In the expression of a pattern, the text of any field stands only in front of something that starts
with the end of a field. So it takes the whole field or else nothing can follow, although it would
match any part of the field.

## Main statements

`Regex.isTidy_regex`: fields are ended in every expression made from a pattern.
`Pattern.SharesPlainly.settled`: alternatives that share characters and fields only are settled.
-/

namespace PhraseGraph

namespace Regex

open Pattern (anyField anyField_eq)

/-- A text that starts with the end of a field. -/
def StartsWithEnd (w : List Char) : Prop := ∃ c rest, w = c :: rest ∧ (c = tagEnd ∨ c = tokenEnd)

mutual

/-- Every field within the expression is ended there, also in the branches of its choices. What is
repeated is not looked into. -/
def IsTidy : Regex → Prop
  | .char set => set ≠ .except [tokenEnd, tagEnd]
  | .concat es => IsRow es
  | .choice es => AreTidy es
  | .repeated e least most => .repeated e least most ≠ anyField

/-- Every field among the parts is ended by the parts behind it. -/
def IsRow : List Regex → Prop
  | [] => True
  | e :: es => e.parts = [e] ∧
      (IsTidy e ∨ e = anyField ∧ ∀ w ∈ (es.map language).prod, StartsWithEnd w) ∧ IsRow es

def AreTidy : List Regex → Prop
  | [] => True
  | e :: es => IsTidy e ∧ AreTidy es

end

theorem areTidy_iff (es : List Regex) : AreTidy es ↔ ∀ e ∈ es, IsTidy e := by
  induction es with
  | nil => simp [AreTidy]
  | cons e es ih => simp [AreTidy, ih]

theorem isRow_cons {e : Regex} {es : List Regex} : IsRow (e :: es) ↔ e.parts = [e] ∧
    (IsTidy e ∨ e = anyField ∧ ∀ w ∈ (es.map language).prod, StartsWithEnd w) ∧ IsRow es := by
  rw [IsRow]

theorem not_isTidy_anyField : ¬IsTidy anyField := by
  rw [anyField_eq, IsTidy]
  exact fun different => different rfl

theorem isRow_singleton {e : Regex} : IsRow [e] ↔ e.parts = [e] ∧ IsTidy e := by
  have unended : ¬∀ w ∈ (([] : List Regex).map language).prod, StartsWithEnd w := by
    intro ended
    obtain ⟨c, rest, impossible, -⟩ := ended [] Language.nil_mem_one
    cases impossible
  rw [isRow_cons]
  constructor
  · rintro ⟨flat, tidy | ⟨-, ended⟩, -⟩
    · exact ⟨flat, tidy⟩
    · exact absurd ended unended
  · rintro ⟨flat, tidy⟩
    exact ⟨flat, Or.inl tidy, trivial⟩

theorem isTidy_iff_parts {e : Regex} : IsTidy e ↔ IsRow e.parts := by
  cases e with
  | concat es => rw [parts, IsTidy]
  | char set => exact (isRow_singleton.trans (and_iff_right rfl)).symm
  | choice es => exact (isRow_singleton.trans (and_iff_right rfl)).symm
  | repeated e least most => exact (isRow_singleton.trans (and_iff_right rfl)).symm

theorem IsTidy.branches {e : Regex} (tidy : IsTidy e) : ∀ f ∈ e.branches, IsTidy f := by
  cases e with
  | choice es =>
    rw [IsTidy, areTidy_iff] at tidy
    exact tidy
  | char set => simpa [Regex.branches] using tidy
  | concat es => simpa [Regex.branches] using tidy
  | repeated e least most => simpa [Regex.branches] using tidy

/-! ### Rows -/

section Rows

variable {row tail : List Regex}

theorem append_mem_prod {u v : List Char} (hu : u ∈ (row.map language).prod)
    (hv : v ∈ (tail.map language).prod) : u ++ v ∈ ((row ++ tail).map language).prod := by
  rw [List.map_append, List.prod_append]
  exact Language.append_mem_mul hu hv

theorem IsRow.append (first : IsRow row) (second : IsRow tail) : IsRow (row ++ tail) := by
  induction row with
  | nil => exact second
  | cons e row ih =>
    obtain ⟨flat, tidy, first⟩ := isRow_cons.mp first
    rw [List.cons_append, isRow_cons]
    refine ⟨flat, tidy.imp_right fun ⟨field, ended⟩ => ⟨field, ?_⟩, ih first⟩
    intro w member
    rw [List.map_append, List.prod_append] at member
    obtain ⟨u, hu, v, -, rfl⟩ := Language.mem_mul.mp member
    obtain ⟨c, rest, rfl, ends⟩ := ended u hu
    exact ⟨c, rest ++ v, rfl, ends⟩

theorem IsRow.drop (tidy : IsRow row) (n : Nat) : IsRow (row.drop n) := by
  induction n generalizing row with
  | zero => exact tidy
  | succ n ih =>
    cases row with
    | nil => exact tidy
    | cons e row => exact ih (isRow_cons.mp tidy).2.2

theorem IsRow.flat (tidy : IsRow row) : ∀ e ∈ row, e.parts = [e] := by
  induction row with
  | nil => simp
  | cons e row ih =>
    obtain ⟨flat, -, rest⟩ := isRow_cons.mp tidy
    exact List.forall_mem_cons.mpr ⟨flat, ih rest⟩

theorem flatMap_parts_of_flat (flat : ∀ e ∈ row, e.parts = [e]) : row.flatMap parts = row := by
  rw [List.flatMap_congr flat, List.flatMap_singleton']

/-- What stands in front of several rows may stand in front of anything that matches what one of
them matches. -/
theorem IsRow.append_of_mem {some : List Regex} (tidy : IsRow (row ++ some)) (after : IsRow tail)
    (matched : ∀ v ∈ (tail.map language).prod,
      ∃ other, IsRow (row ++ other) ∧ v ∈ (other.map language).prod) : IsRow (row ++ tail) := by
  induction row with
  | nil => exact after
  | cons e row ih =>
    obtain ⟨flat, tidyHere, tidy⟩ := isRow_cons.mp tidy
    have further := ih tidy fun v member => by
      obtain ⟨other, tidy, member⟩ := matched v member
      exact ⟨other, (isRow_cons.mp tidy).2.2, member⟩
    rw [List.cons_append, isRow_cons]
    refine ⟨flat, tidyHere.imp_right fun ⟨field, _⟩ => ⟨field, ?_⟩, further⟩
    intro w member
    rw [List.map_append, List.prod_append] at member
    obtain ⟨u, hu, v, hv, rfl⟩ := Language.mem_mul.mp member
    obtain ⟨other, tidy, hv⟩ := matched v hv
    rcases (isRow_cons.mp tidy).2.1 with tidy | ⟨-, ended⟩
    -- a field is tidy nowhere but in front of its end
    · exact absurd (field ▸ tidy) not_isTidy_anyField
    · exact ended _ (append_mem_prod hu hv)

theorem isTidy_inOrder {es : List Regex} (tidy : IsRow (es.flatMap parts)) :
    IsTidy (inOrder es) := by
  unfold inOrder
  split
  · next e single =>
    rw [single] at tidy
    exact (isRow_singleton.mp tidy).2
  · rwa [IsTidy]

theorem isRow_flatMap_parts {es : List Regex} (tidy : ∀ e ∈ es, IsTidy e) :
    IsRow (es.flatMap parts) := by
  induction es with
  | nil => trivial
  | cons e es ih =>
    obtain ⟨here, later⟩ := List.forall_mem_cons.mp tidy
    exact (isTidy_iff_parts.mp here).append (ih later)

theorem isTidy_dropParts {e : Regex} (tidy : IsTidy e) (n : Nat) : IsTidy (dropParts n e) := by
  have rest := (isTidy_iff_parts.mp tidy).drop n
  apply isTidy_inOrder
  rwa [flatMap_parts_of_flat rest.flat]

theorem isTidy_never : IsTidy never := by
  rw [never, IsTidy]
  intro same
  cases same

theorem isTidy_oneOf {es : List Regex} (tidy : ∀ e ∈ es, IsTidy e) : IsTidy (oneOf es) := by
  have flat : ∀ f ∈ es.flatMap branches, IsTidy f := by
    intro f member
    obtain ⟨e, inside, branch⟩ := List.mem_flatMap.mp member
    exact (tidy e inside).branches f branch
  fun_induction oneOf es with
  | case1 => exact isTidy_never
  | case2 es e single => exact flat e (single ▸ List.mem_singleton_self e)
  | case3 => exact isTidy_never
  | case4 es e others _ split =>
    rw [split] at flat
    rwa [IsTidy, areTidy_iff]
  | case5 es e others _ split _ _ shared _ ih =>
    rw [split] at flat
    have rests : ∀ f ∈ (e :: others).map (dropParts shared), IsTidy f := by
      intro f member
      obtain ⟨g, inside, rfl⟩ := List.mem_map.mp member
      exact isTidy_dropParts (flat g inside) shared
    have last := isTidy_iff_parts.mp (ih rests fun f member => by
      obtain ⟨g, inside, branch⟩ := List.mem_flatMap.mp member
      exact (rests g inside).branches f branch)
    have whole (f : Regex) (inside : f ∈ e :: others) :
        IsRow (e.parts.take shared ++ f.parts.drop shared) := by
      have same : e.parts.take shared = f.parts.take shared :=
        take_sharedCount_eq List.mem_cons_self inside
      rw [same, List.take_append_drop]
      exact isTidy_iff_parts.mp (flat f inside)
    have row := isTidy_iff_parts.mp (flat e List.mem_cons_self)
    have front : (e.parts.take shared).flatMap parts = e.parts.take shared :=
      flatMap_parts_of_flat fun f inside => row.flat f (List.mem_of_mem_take inside)
    apply isTidy_inOrder
    rw [List.flatMap_append, front, List.flatMap_singleton]
    -- whatever comes behind what is shared comes behind it in one of the branches
    apply (whole e List.mem_cons_self).append_of_mem last
    intro v member
    rw [language_parts, language_oneOf, mem_sum_map] at member
    obtain ⟨g, inside, matched⟩ := member
    obtain ⟨f, branch, rfl⟩ := List.mem_map.mp inside
    rw [dropParts, language_inOrder] at matched
    exact ⟨f.parts.drop shared, whole f branch, matched⟩

theorem isTidy_repeating {e : Regex} (tidy : IsTidy e) (least : Nat) (most : Option Nat) :
    IsTidy (repeating e least most) := by
  obtain ⟨least', most', forms, -⟩ := repeating_cases e least most
  rcases forms with ⟨form, -⟩ | ⟨form, -⟩ | form
  · rw [form, empty, IsTidy]
    trivial
  · rwa [form]
  · rw [form, IsTidy, anyField_eq]
    intro field
    obtain ⟨rfl, -⟩ := Regex.repeated.inj field
    exact tidy rfl

theorem isRow_letter {c : Char} (after : IsRow tail) : IsRow (.char (.only c) :: tail) :=
  isRow_cons.mpr ⟨rfl, Or.inl nofun, after⟩

theorem isRow_literal (cs : List Char) (after : IsRow tail) : IsRow (literal cs ++ tail) := by
  induction cs with
  | nil => exact after
  | cons c cs ih => exact isRow_letter ih

/-- A field in front of its end. -/
theorem isRow_field {c : Char} (ends : c = tagEnd ∨ c = tokenEnd) (after : IsRow tail) :
    IsRow (anyField :: .char (.only c) :: tail) := by
  refine isRow_cons.mpr ⟨rfl, Or.inr ⟨rfl, ?_⟩, isRow_letter after⟩
  intro w member
  rw [List.map_cons, List.prod_cons] at member
  obtain ⟨u, hu, v, -, rfl⟩ := Language.mem_mul.mp member
  obtain ⟨d, accepted, rfl⟩ := mem_language_char.mp hu
  obtain rfl : d = c := by simpa [CharSet.accepts] using accepted
  exact ⟨d, v, rfl, ends⟩

end Rows

theorem isTidy_tokenRegex (p : TokenPattern) : IsTidy (Pattern.tokenRegex p) := by
  have last : IsRow (.char (.only tokenEnd) :: []) := isRow_letter trivial
  have headword : IsRow (Pattern.headwordRegex p.headword ++ [.char (.only tokenEnd)]) := by
    cases p.headword with
    | none => exact isRow_field (Or.inr rfl) trivial
    | some text => exact isRow_literal _ last
  have whole : IsRow (Pattern.tagRegex p.tag ++ .char (.only tagEnd) ::
      (Pattern.headwordRegex p.headword ++ [.char (.only tokenEnd)])) := by
    cases p.tag with
    | any => exact isRow_field (Or.inl rfl) headword
    | exact tag => exact isRow_literal _ (isRow_letter headword)
    | startsWith start =>
      rw [Pattern.tagRegex, List.append_assoc]
      exact isRow_literal _ (isRow_field (Or.inl rfl) headword)
  have parts : Pattern.tagRegex p.tag ++ literal [tagEnd] ++ Pattern.headwordRegex p.headword ++
      literal [tokenEnd] = Pattern.tagRegex p.tag ++ .char (.only tagEnd) ::
      (Pattern.headwordRegex p.headword ++ [.char (.only tokenEnd)]) := by
    simp [literal]
  rw [Pattern.tokenRegex, parts]
  apply isTidy_inOrder
  rwa [flatMap_parts_of_flat whole.flat]

mutual

/-- Every field in the expression of a pattern is ended. -/
theorem isTidy_regex : ∀ p : Pattern, IsTidy p.regex
  | .token p => by
    rw [Pattern.regex]
    exact isTidy_tokenRegex p
  | .sequence ps => by
    rw [Pattern.regex]
    exact isTidy_inOrder (isRow_flatMap_parts (isTidy_regexes ps))
  | .anyOf ps => by
    rw [Pattern.regex]
    exact isTidy_oneOf (isTidy_regexes ps)
  | .optional p => by
    rw [Pattern.regex]
    exact isTidy_repeating (isTidy_regex p) 0 (some 1)
  | .repeated p least most => by
    rw [Pattern.regex]
    exact isTidy_repeating (isTidy_regex p) least most

theorem isTidy_regexes : ∀ ps : List Pattern, ∀ e ∈ Pattern.regexes ps, IsTidy e
  | [] => by simp
  | p :: ps => by
    rw [Pattern.regexes]
    exact List.forall_mem_cons.mpr ⟨isTidy_regex p, isTidy_regexes ps⟩

end

/-! ### Sharing pieces of tokens -/

/-- A single character or the text of any field: what the expressions of tokens consist of. -/
def IsPlain (e : Regex) : Prop := (∃ c, e = .char (.only c)) ∨ e = anyField

/-- Whatever the branches of a choice share when it is built, also after something has been taken
out of them, consists of characters and fields. -/
inductive SharesPlainly : List Regex → Prop
  | unshared {es : List Regex} : sharedCount (es.flatMap branches) = 0 → SharesPlainly es
  | shared {es : List Regex} {e : Regex} {others : List Regex} :
    es.flatMap branches = e :: others →
    (∀ part ∈ e.parts.take (sharedCount (e :: others)), IsPlain part) →
    SharesPlainly ((e :: others).map (dropParts (sharedCount (e :: others)))) → SharesPlainly es

/-- A field up to its end can be read in one way. -/
theorem field_unique {u u' v v' : List Char} (field : IsField u) (field' : IsField u')
    (ended : StartsWithEnd v) (ended' : StartsWithEnd v') (equal : u ++ v = u' ++ v') : u = u' := by
  have noEnd {c : Char} {cs : List Char} (field : IsField (c :: cs)) : ¬(c = tagEnd ∨ c = tokenEnd) :=
    fun ends => ends.elim (field c List.mem_cons_self).1 (field c List.mem_cons_self).2
  induction u generalizing u' with
  | nil =>
    cases u' with
    | nil => rfl
    | cons c u' =>
      -- the first field would end where the second one goes on
      obtain ⟨d, rest, rfl, ends⟩ := ended
      obtain ⟨rfl, -⟩ := List.cons.inj equal
      exact absurd ends (noEnd field')
  | cons c u ih =>
    cases u' with
    | nil =>
      obtain ⟨d, rest, rfl, ends⟩ := ended'
      obtain ⟨rfl, -⟩ := List.cons.inj equal
      exact absurd ends (noEnd field)
    | cons d u' =>
      obtain ⟨rfl, behind⟩ := List.cons.inj equal
      have inside : IsField u := fun x member => field x (List.mem_cons_of_mem c member)
      have inside' : IsField u' := fun x member => field' x (List.mem_cons_of_mem c member)
      rw [ih inside inside' behind]

theorem StartsWithEnd.append {v : List Char} (ended : StartsWithEnd v) (w : List Char) :
    StartsWithEnd (v ++ w) := by
  obtain ⟨c, rest, rfl, ends⟩ := ended
  exact ⟨c, rest ++ w, rfl, ends⟩

/-- Characters and fields can be read in one way, if the fields are ended by what comes behind. -/
theorem plain_unique {row tail tail' : List Regex} (plain : ∀ part ∈ row, IsPlain part)
    (tidy : IsRow (row ++ tail)) (tidy' : IsRow (row ++ tail')) {u u' v v' w w' : List Char}
    (hu : u ∈ (row.map language).prod) (hu' : u' ∈ (row.map language).prod)
    (hv : v ∈ (tail.map language).prod) (hv' : v' ∈ (tail'.map language).prod)
    (equal : u ++ (v ++ w) = u' ++ (v' ++ w')) : u = u' := by
  induction row generalizing u u' with
  | nil => rw [show u = [] from hu, show u' = [] from hu']
  | cons e row ih =>
    obtain ⟨here, later⟩ := List.forall_mem_cons.mp plain
    obtain ⟨-, tidyHere, tidy⟩ := isRow_cons.mp tidy
    obtain ⟨-, tidyHere', tidy'⟩ := isRow_cons.mp tidy'
    rw [List.map_cons, List.prod_cons] at hu hu'
    obtain ⟨a, ha, b, hb, rfl⟩ := Language.mem_mul.mp hu
    obtain ⟨a', ha', b', hb', rfl⟩ := Language.mem_mul.mp hu'
    rw [List.append_assoc, List.append_assoc] at equal
    have same : a = a' := by
      rcases here with ⟨c, rfl⟩ | rfl
      -- a single character is the same in both, a field goes up to its end
      · obtain ⟨d, accepted, rfl⟩ := mem_language_char.mp ha
        obtain ⟨d', accepted', rfl⟩ := mem_language_char.mp ha'
        rw [List.singleton_append, List.singleton_append] at equal
        rw [(List.cons.inj equal).1]
      · have ended := tidyHere.resolve_left not_isTidy_anyField
        have ended' := tidyHere'.resolve_left not_isTidy_anyField
        rw [← List.append_assoc b, ← List.append_assoc b'] at equal
        exact field_unique (Pattern.mem_language_anyField.mp ha) (Pattern.mem_language_anyField.mp ha')
          ((ended.2 _ (append_mem_prod hb hv)).append w)
          ((ended'.2 _ (append_mem_prod hb' hv')).append w') equal
    subst same
    rw [ih later tidy tidy' hb hb' (List.append_cancel_left equal)]

/-- What branches share is no reason to prefer another match if it consists of characters and
fields. -/
theorem sharesSettled_of_plain {es : List Regex} (tidy : ∀ e ∈ es, IsTidy e)
    (plain : SharesPlainly es) : SharesSettled es := by
  induction plain with
  | unshared none => exact .unshared none
  | @shared es e others flat plain _ ih =>
    have branches : ∀ f ∈ e :: others, IsTidy f := by
      intro f member
      rw [← flat] at member
      obtain ⟨g, inside, branch⟩ := List.mem_flatMap.mp member
      exact (tidy g inside).branches f branch
    have rests : ∀ f ∈ (e :: others).map (dropParts (sharedCount (e :: others))), IsTidy f := by
      intro f member
      obtain ⟨g, inside, rfl⟩ := List.mem_map.mp member
      exact isTidy_dropParts (branches g inside) _
    refine .shared flat ?_ (ih rests)
    -- a branch that goes on starts with what ends the last field of what is shared
    have goesOn (w : List Char) (n : Nat)
        (some : Ways.oneOf (((e :: others).map (dropParts (sharedCount (e :: others)))).map ways)
          (w.drop n) ≠ []) :
        ∃ tail j, IsRow (e.parts.take (sharedCount (e :: others)) ++ tail) ∧
          (w.drop n).take j ∈ (tail.map language).prod := by
      rw [Ways.oneOf_apply] at some
      obtain ⟨j, member⟩ := List.exists_mem_of_ne_nil _ some
      obtain ⟨f, way, reached⟩ := List.mem_flatMap.mp member
      obtain ⟨g, dropped, rfl⟩ := List.mem_map.mp way
      obtain ⟨h, inside, rfl⟩ := List.mem_map.mp dropped
      have matched := ((matches_ways _ _ j).mp reached).2
      rw [dropParts, language_inOrder] at matched
      refine ⟨h.parts.drop (sharedCount (e :: others)), j, ?_, matched⟩
      have same : e.parts.take (sharedCount (e :: others)) =
          h.parts.take (sharedCount (e :: others)) := take_sharedCount_eq List.mem_cons_self inside
      rw [same, List.take_append_drop]
      exact isTidy_iff_parts.mp (branches h inside)
    intro w n hn m hm some some'
    obtain ⟨tail, j, row, matched⟩ := goesOn w n some
    obtain ⟨tail', j', row', matched'⟩ := goesOn w m some'
    obtain ⟨bound, shared⟩ := (matches_inOrder _ w n).mp hn
    obtain ⟨bound', shared'⟩ := (matches_inOrder _ w m).mp hm
    -- both ends cut one and the same text, which can be read in one way only
    have split (n j : Nat) : w.take n ++ ((w.drop n).take j ++ (w.drop n).drop j) = w := by
      simp only [List.take_append_drop]
    have same := plain_unique plain row row' shared shared' matched matched'
      ((split n j).trans (split m j').symm)
    have lengths := congrArg List.length same
    rwa [List.length_take, List.length_take, Nat.min_eq_left bound, Nat.min_eq_left bound'] at lengths

/-! ### Branches that consist of nothing else -/

section Plain

variable {e : Regex} {es : List Regex}

theorem IsPlain.parts (plain : IsPlain e) : e.parts = [e] := by
  rcases plain with ⟨c, rfl⟩ | rfl
  · rfl
  · rfl

theorem branches_of_plain (plain : ∀ part ∈ e.parts, IsPlain part) : e.branches = [e] := by
  cases e with
  | choice es =>
    obtain ⟨c, impossible⟩ | impossible := plain _ (List.mem_singleton_self _)
    · cases impossible
    · rw [anyField_eq] at impossible
      cases impossible
  | _ => rfl

theorem parts_dropParts (plain : ∀ part ∈ e.parts, IsPlain part) (n : Nat) :
    (dropParts n e).parts = e.parts.drop n := by
  have rest : ∀ part ∈ e.parts.drop n, part.parts = [part] :=
    fun part inside => (plain part (List.mem_of_mem_drop inside)).parts
  rw [dropParts, inOrder, flatMap_parts_of_flat rest]
  split
  · next part single =>
    rw [single]
    exact rest part (single ▸ List.mem_singleton_self part)
  · rfl

/-- Branches that consist of characters and fields share nothing else. -/
theorem sharesPlainly_of_parts (plain : ∀ e ∈ es, ∀ part ∈ e.parts, IsPlain part) :
    SharesPlainly es := by
  -- by induction on the number of parts, since what is shared is taken out of all branches
  induction total : (es.map fun e => e.parts.length).sum using Nat.strong_induction_on
    generalizing es with
  | _ total ih =>
    have flat : es.flatMap branches = es := by
      rw [List.flatMap_congr fun e inside => branches_of_plain (plain e inside),
        List.flatMap_singleton']
    by_cases shares : sharedCount es = 0
    · exact .unshared (flat.symm ▸ shares)
    · cases es with
      | nil => exact absurd rfl shares
      | cons e others =>
        refine .shared flat (fun part start =>
          plain e List.mem_cons_self part (List.mem_of_mem_take start)) (ih _ ?_ ?_ rfl)
        · rw [← total, List.map_map]
          refine List.sum_lt_sum_of_ne_nil (List.cons_ne_nil _ _) _ _ fun f inside => ?_
          have several := several_parts shares f inside
          rw [Function.comp_apply, parts_dropParts (plain f inside), List.length_drop]
          omega
        · intro f member part inside
          obtain ⟨g, branch, rfl⟩ := List.mem_map.mp member
          rw [parts_dropParts (plain g branch)] at inside
          exact plain g branch part (List.mem_of_mem_drop inside)

end Plain

end Regex

/-- The alternatives at every place share nothing but pieces of tokens. -/
def Pattern.SharesPlainly (p : Pattern) : Prop :=
  ∀ ps, .anyOf ps ∈ p.subpatterns → Regex.SharesPlainly (regexes ps)

theorem Pattern.SharesPlainly.settled {p : Pattern} (plain : p.SharesPlainly) : p.SharesSettled :=
  fun ps inside => Regex.sharesSettled_of_plain (Regex.isTidy_regexes ps) (plain ps inside)

end PhraseGraph
