import PhraseGraph.Proofs.Regex.Language
import PhraseGraph.Regex.Form

/-!
# PhraseGraph.Proofs.Regex.Form

What an expression matches that is given by its written form.

A form matches a part of a text. Whether it does may depend on what stands before and after that
part, since the two ends of the text can be asked for. A form that asks for neither of them matches
the texts of a language, wherever they stand.

## Main statements

`Form.SpellAll.append`, `Form.Spells.or`, `Form.Spells.repetition`: the languages of forms are put
together as the forms are.
-/

namespace PhraseGraph.Regex.Form

/-- So many parts one after another. -/
def Times (part : List Char → List Char → List Char → Prop) :
    Nat → List Char → List Char → List Char → Prop
  | 0, _, w, _ => w = []
  | k + 1, before, w, after => ∃ u v, w = u ++ v ∧ part before u (v ++ after) ∧
      Times part k (before ++ u) v after

mutual

/-- The form matches the part of a text that stands between two other parts. -/
def Matches : Form → List Char → List Char → List Char → Prop
  | .literal c => fun _ w _ => w = [c]
  | .except members => fun _ w _ => ∃ c, (∀ m ∈ members, m.contains c = false) ∧ w = [c]
  | .textStart => fun before w _ => before = [] ∧ w = []
  | .textEnd => fun _ w after => w = [] ∧ after = []
  | .group e => Matches e
  | .concat es => MatchesAll es
  | .alternation es => MatchesSome es
  | .repetition e least most => fun before w after =>
    ∃ k, least ≤ k ∧ (∀ m ∈ most, k ≤ m) ∧ Times (Matches e) k before w after

/-- The items match parts of the text one after another. -/
def MatchesAll : List Form → List Char → List Char → List Char → Prop
  | [] => fun _ w _ => w = []
  | e :: es => fun before w after => ∃ u v, w = u ++ v ∧ Matches e before u (v ++ after) ∧
    MatchesAll es (before ++ u) v after

def MatchesSome : List Form → List Char → List Char → List Char → Prop
  | [] => fun _ _ _ => False
  | e :: es => fun before w after => Matches e before w after ∨ MatchesSome es before w after

end

variable {e : Form} {es fs : List Form} {l m : Language Char}

theorem matches_ofItems {before w after : List Char} :
    (ofItems es).Matches before w after ↔ MatchesAll es before w after := by
  match es with
  | [] => rw [ofItems, Matches]; exact nofun
  | [e] =>
    rw [ofItems, MatchesAll]
    simp [MatchesAll]
  | e :: f :: es => rw [ofItems, Matches]; exact nofun

theorem matches_ofBranches {before w after : List Char} :
    (ofBranches es).Matches before w after ↔ MatchesSome es before w after := by
  match es with
  | [] => rw [ofBranches, Matches]; exact nofun
  | [e] => simp [ofBranches, MatchesSome]
  | e :: f :: es => rw [ofBranches, Matches]; exact nofun

theorem matchesAll_append {before w after : List Char} :
    MatchesAll (es ++ fs) before w after ↔ ∃ u v, w = u ++ v ∧
      MatchesAll es before u (v ++ after) ∧ MatchesAll fs (before ++ u) v after := by
  induction es generalizing before w with
  | nil => simp [MatchesAll]
  | cons e es ih =>
    rw [List.cons_append, MatchesAll, MatchesAll]
    constructor
    · rintro ⟨u, v, rfl, first, rest⟩
      obtain ⟨u', v', rfl, middle, last⟩ := ih.mp rest
      refine ⟨u ++ u', v', (List.append_assoc u u' v').symm, ⟨u, u', rfl, ?_, middle⟩, ?_⟩
      · rwa [List.append_assoc] at first
      · rwa [List.append_assoc] at last
    · rintro ⟨_, v', rfl, ⟨u, u', rfl, first, middle⟩, last⟩
      rw [← List.append_assoc] at first last
      exact ⟨u, u' ++ v', List.append_assoc u u' v', first, ih.mpr ⟨u', v', rfl, middle, last⟩⟩

/-! ### Languages -/

/-- The form matches the texts of the language, wherever they stand. -/
def Spells (e : Form) (l : Language Char) : Prop :=
  ∀ before w after, e.Matches before w after ↔ w ∈ l

def SpellAll (es : List Form) (l : Language Char) : Prop :=
  ∀ before w after, MatchesAll es before w after ↔ w ∈ l

def SpellSome (es : List Form) (l : Language Char) : Prop :=
  ∀ before w after, MatchesSome es before w after ↔ w ∈ l

theorem spells_literal (c : Char) : (literal c).Spells (char (.only c)).language := by
  intro before w after
  rw [Matches, mem_language_char]
  simp [CharSet.accepts]

theorem spellAll_nil : SpellAll [] 1 := by
  intro before w after
  rw [MatchesAll]
  rfl

theorem SpellAll.cons (first : e.Spells l) (rest : SpellAll es m) : SpellAll (e :: es) (l * m) := by
  intro before w after
  rw [MatchesAll, Language.mem_mul]
  constructor
  · rintro ⟨u, v, rfl, hu, hv⟩
    exact ⟨u, (first _ _ _).mp hu, v, (rest _ _ _).mp hv, rfl⟩
  · rintro ⟨u, hu, v, hv, rfl⟩
    exact ⟨u, v, rfl, (first _ _ _).mpr hu, (rest _ _ _).mpr hv⟩

theorem spellAll_singleton (only : e.Spells l) : SpellAll [e] l := by
  have row := SpellAll.cons only spellAll_nil
  rwa [mul_one] at row

theorem spellAll_literals (cs : List Char) :
    SpellAll (cs.map .literal) ((Regex.literal cs).map language).prod := by
  induction cs with
  | nil => exact spellAll_nil
  | cons c cs ih => exact SpellAll.cons (spells_literal c) ih

theorem SpellAll.append (first : SpellAll es l) (second : SpellAll fs m) :
    SpellAll (es ++ fs) (l * m) := by
  intro before w after
  rw [matchesAll_append, Language.mem_mul]
  constructor
  · rintro ⟨u, v, rfl, hu, hv⟩
    exact ⟨u, (first _ _ _).mp hu, v, (second _ _ _).mp hv, rfl⟩
  · rintro ⟨u, hu, v, hv, rfl⟩
    exact ⟨u, v, rfl, (first _ _ _).mpr hu, (second _ _ _).mpr hv⟩

theorem spellSome_nil : SpellSome [] 0 := by
  intro before w after
  rw [MatchesSome]
  rfl

theorem Spells.or (first : e.Spells l) (rest : SpellSome es m) :
    SpellSome (e :: es) (l + m) := by
  intro before w after
  rw [MatchesSome, Language.mem_add]
  exact or_congr (first before w after) (rest before w after)

theorem SpellAll.ofItems (row : SpellAll es l) : (ofItems es).Spells l := fun _ _ _ =>
  matches_ofItems.trans (row _ _ _)

theorem SpellSome.ofBranches (branches : SpellSome es l) : (ofBranches es).Spells l := fun _ _ _ =>
  matches_ofBranches.trans (branches _ _ _)

theorem Spells.group (body : e.Spells l) : (group e).Spells l := by
  intro before w after
  rw [Matches]
  exact body before w after

theorem times_iff (part : e.Spells l) {k : Nat} {before w after : List Char} :
    Times e.Matches k before w after ↔ w ∈ l ^ k := by
  -- every copy stands behind more of the text than the one before
  induction k generalizing before w with
  | zero => rfl
  | succ k ih =>
    rw [Times, pow_succ', Language.mem_mul]
    constructor
    · rintro ⟨u, v, rfl, hu, hv⟩
      exact ⟨u, (part _ _ _).mp hu, v, ih.mp hv, rfl⟩
    · rintro ⟨u, hu, v, hv, rfl⟩
      exact ⟨u, v, rfl, (part _ _ _).mpr hu, ih.mpr hv⟩

theorem Spells.repetition (body : e.Spells l) {least : Nat} {most : Option Nat}
    (inOrder : ∀ m ∈ most, least ≤ m) : (repetition e least most).Spells (copies l least most) := by
  intro before w after
  rw [Matches, mem_copies inOrder]
  simp only [times_iff body]

end PhraseGraph.Regex.Form
