import PhraseGraph.Proofs.Pattern.Flattening
import PhraseGraph.Proofs.Pattern.Written

/-!
# PhraseGraph.Proofs.Pattern.Nesting

Patterns whose written form cannot be read, or is nested too deep.

The levels of a written form are those of what is read from it, where a row of several items and a
choice of several branches are levels, and a sequence of the pattern is none. So they differ from
the levels of the pattern. They are told by the pattern nevertheless, part by part.

## Main statements

`Pattern.depth_form`: the levels of the written form, told by the pattern.
`Pattern.not_malformed_iff`: a pattern is well formed if its repetitions are in order and its text has
no more levels than allowed.
`Pattern.interchangeable_rowMembers`: sequences in sequences are written as one row.
-/

namespace PhraseGraph

/-! ### Levels of forms -/

namespace Regex.Form

mutual

/-- The levels of a form, one within the other: groups, repetitions, sets and the members of a set
if it names several, rows of several items, and choices of several branches. An empty row is no
level, and neither are single characters and the ends of the text. -/
def depth : Form → Nat
  | .literal _ => 0
  -- the set itself, and the union of its members if there are several
  | .except members => if 1 < members.length then 2 else 1
  | .textStart => 0
  | .textEnd => 0
  | .group body => 1 + depth body
  | .concat [] => 0
  | .concat (e :: es) => 1 + max (depth e) (depthAll es)
  | .alternation branches => 1 + depthAll branches
  | .repetition body _ _ => 1 + depth body

/-- The levels of the deepest one. -/
def depthAll : List Form → Nat
  | [] => 0
  | e :: es => max (depth e) (depthAll es)

end

theorem depthAll_append (es fs : List Form) :
    depthAll (es ++ fs) = max (depthAll es) (depthAll fs) := by
  induction es with
  | nil => rw [List.nil_append, depthAll, Nat.zero_max]
  | cons e es ih => rw [List.cons_append, depthAll, depthAll, ih, Nat.max_assoc]

theorem depthAll_literals (cs : List Char) : depthAll (cs.map .literal) = 0 := by
  induction cs with
  | nil => rfl
  | cons c cs ih => rw [List.map_cons, depthAll, depth, ih, Nat.max_self]

theorem depth_ofItems (es : List Form) :
    (ofItems es).depth = Pattern.rowLevel es.length + depthAll es := by
  match es with
  | [] => rfl
  | [e] => simp [ofItems, depthAll, Pattern.rowLevel]
  | e :: f :: es => simp [ofItems, depth, depthAll, Pattern.rowLevel]

theorem depth_ofBranches (e : Form) (es : List Form) :
    (ofBranches (e :: es)).depth = Pattern.rowLevel (es.length + 1) + depthAll (e :: es) := by
  cases es with
  | nil => simp [ofBranches, depthAll, Pattern.rowLevel]
  | cons f es => simp [ofBranches, depth, depthAll, Pattern.rowLevel]

end Regex.Form

namespace Pattern

open Regex Regex.Form

/-! ### Levels of patterns -/

mutual

theorem length_forms : ∀ p : Pattern, p.forms.length = p.itemCount
  | .token _ => rfl
  | .sequence ps => by rw [forms, itemCount, length_formsAll ps]
  | .anyOf [] => rfl
  | .anyOf (_ :: _) => rfl
  | .optional _ => rfl
  | .repeated _ _ _ => rfl

theorem length_formsAll : ∀ ps : List Pattern, (formsAll ps).length = itemCountAll ps
  | [] => rfl
  | p :: ps => by rw [formsAll, itemCountAll, List.length_append, length_forms p, length_formsAll ps]

end

theorem depth_tokenForms (t : TokenPattern) :
    1 + (ofItems (tokenForms t)).depth = tokenLevels t := by
  obtain ⟨tag, headword⟩ := t
  -- the ends of the tag and of the token stand in every row
  have several : rowLevel (tokenForms ⟨tag, headword⟩).length = 1 := by
    simp only [rowLevel, tokenForms, List.length_append, List.length_singleton]
    exact if_pos (by omega)
  rw [depth_ofItems, several]
  cases tag <;> cases headword <;>
    simp [tokenForms, tagForms, headwordForms, fieldForm, tokenLevels, depthAll_append,
      depthAll_literals, depthAll, depth]

mutual

theorem depthAll_forms : ∀ p : Pattern, depthAll p.forms = p.itemLevels
  | .token t => by
    rw [forms, itemLevels, depthAll, depthAll, depth, Nat.max_zero, depth_tokenForms]
  | .sequence ps => by rw [forms, itemLevels, depthAll_formsAll ps]
  | .anyOf [] => rfl
  | .anyOf (p :: ps) => by
    have branches := depthAll_branchForms (p :: ps)
    rw [branchForms] at branches
    have length : (branchForms ps).length + 1 = (p :: ps).length := by
      rw [branchForms_eq, List.length_map, List.length_map, List.length_cons]
    rw [forms, itemLevels, depthAll, depthAll, depth, depth_ofBranches, branches, length]
    · omega
    · exact List.cons_ne_nil p ps
  | .optional p => by
    rw [forms, itemLevels, depthAll, depthAll, depth, depth, depth_ofItems, length_forms,
      depthAll_forms p]
    omega
  | .repeated p _ _ => by
    rw [forms, itemLevels, depthAll, depthAll, depth, depth, depth_ofItems, length_forms,
      depthAll_forms p]
    omega

theorem depthAll_formsAll : ∀ ps : List Pattern, depthAll (formsAll ps) = itemLevelsAll ps
  | [] => rfl
  | p :: ps => by
    rw [formsAll, itemLevelsAll, depthAll_append, depthAll_forms p, depthAll_formsAll ps]

theorem depthAll_branchForms : ∀ ps : List Pattern, depthAll (branchForms ps) = branchLevels ps
  | [] => rfl
  | p :: ps => by
    rw [branchForms, branchLevels, depthAll, depth_ofItems, length_forms, depthAll_forms p,
      depthAll_branchForms ps]

end

/-- The levels of the written form are counted by going through the pattern, in both modes alike. -/
theorem depth_form (mode : MatchMode) (p : Pattern) : (p.form mode).depth = p.nesting := by
  cases mode <;>
    simp [form, nesting, depth_ofItems, depthAll, depth, depthAll_forms, length_forms, rowLevel] <;> omega

/-! ### What is not well formed -/

mutual

theorem isBounded_iff : ∀ p : Pattern, p.isBounded = true ↔
    ∀ body least most, .repeated body least (some most) ∈ p.subpatterns → least ≤ most
  | .token _ => by simp [isBounded, subpatterns]
  | .sequence ps => by simp [isBounded, subpatterns, areBounded_iff_each ps]
  | .anyOf ps => by simp [isBounded, subpatterns, areBounded_iff_each ps]
  | .optional p => by simp [isBounded, subpatterns, isBounded_iff p]
  | .repeated p least most => by
    rw [isBounded_repeated, isBounded_iff p]
    simp only [subpatterns, List.mem_cons, or_imp, forall_and]
    refine and_congr_left fun _ => ⟨?_, fun each m given => each p least m (given ▸ rfl)⟩
    rintro inOrder _ _ m ⟨⟩
    exact inOrder m rfl

theorem areBounded_iff_each : ∀ ps : List Pattern, areBounded ps = true ↔
    ∀ body least most, .repeated body least (some most) ∈ subpatternsOfEach ps → least ≤ most
  | [] => by simp [areBounded, subpatternsOfEach]
  | p :: ps => by
    simp only [areBounded, subpatternsOfEach, Bool.and_eq_true, isBounded_iff p,
      areBounded_iff_each ps, List.mem_append, or_imp, forall_and]

end

/-- A repetition somewhere in the pattern, taken or not, asks for more copies than it allows, or the
written form of the pattern is read but has too many levels. -/
def Malformed (mode : MatchMode) (p : Pattern) : Prop :=
  (∃ body least most, .repeated body least (some most) ∈ p.subpatterns ∧ most < least) ∨
    ∃ e, Form.read? (p.source mode) = some e ∧ nestingLimit < e.depth

theorem not_malformed_iff {mode : MatchMode} {p : Pattern} :
    ¬ p.Malformed mode ↔ p.isWellFormed = true := by
  have bounded : p.isBounded = true ↔
      ¬ ∃ body least most, .repeated body least (some most) ∈ p.subpatterns ∧ most < least := by
    simp [isBounded_iff]
  rw [Malformed, not_or, ← bounded, isWellFormed, Bool.and_eq_true, decide_eq_true_eq]
  refine and_congr_right fun inOrder => ?_
  -- only what is bounded has a text that can be read
  rw [read?_source, if_pos inOrder]
  simp [depth_form]

theorem malformed_iff {mode : MatchMode} {p : Pattern} :
    p.Malformed mode ↔ p.isWellFormed = false := by
  rw [← Bool.not_eq_true, ← not_iff_not, not_malformed_iff, not_not]

/-! ### Sequences in sequences -/

mutual

/-- What stands in a row if the pattern is put there. Sequences are opened, however deep they stand
in one another. -/
def rowMembers : Pattern → List Pattern
  | .sequence ps => rowMembersAll ps
  | p => [p]

def rowMembersAll : List Pattern → List Pattern
  | [] => []
  | p :: ps => rowMembers p ++ rowMembersAll ps

end

theorem rowMembersAll_eq_flatMap (ps : List Pattern) :
    rowMembersAll ps = ps.flatMap rowMembers := by
  induction ps with
  | nil => rfl
  | cons p ps ih => rw [rowMembersAll, ih, List.flatMap_cons]

mutual

theorem ne_sequence_of_mem_rowMembers : ∀ p : Pattern, ∀ q ∈ p.rowMembers, ∀ qs, q ≠ .sequence qs
  | .token _ => by simp [rowMembers]
  | .sequence ps => ne_sequence_of_mem_rowMembersAll ps
  | .anyOf _ => by simp [rowMembers]
  | .optional _ => by simp [rowMembers]
  | .repeated _ _ _ => by simp [rowMembers]

theorem ne_sequence_of_mem_rowMembersAll : ∀ ps : List Pattern, ∀ q ∈ rowMembersAll ps, ∀ qs,
    q ≠ .sequence qs
  | [] => by simp [rowMembersAll]
  | p :: ps => by
    rw [rowMembersAll, List.forall_mem_append]
    exact ⟨ne_sequence_of_mem_rowMembers p, ne_sequence_of_mem_rowMembersAll ps⟩

end

mutual

/-- All that stands in the row of a sequence may as well stand in the sequence itself. -/
theorem interchangeable_rowMembers : ∀ p : Pattern,
    Interchangeable (.sequence p.rowMembers) p
  | .token _ => interchangeable_singleton _
  | .sequence ps => by
    rw [rowMembers, rowMembersAll_eq_flatMap]
    exact interchangeable_flatMap (interchangeable_rowMembers_each ps)
  | .anyOf _ => interchangeable_singleton _
  | .optional _ => interchangeable_singleton _
  | .repeated _ _ _ => interchangeable_singleton _

theorem interchangeable_rowMembers_each : ∀ ps : List Pattern, ∀ p ∈ ps,
    Interchangeable (.sequence p.rowMembers) p
  | [] => nofun
  | p :: ps => List.forall_mem_cons.mpr
    ⟨interchangeable_rowMembers p, interchangeable_rowMembers_each ps⟩

end

end Pattern

end PhraseGraph
