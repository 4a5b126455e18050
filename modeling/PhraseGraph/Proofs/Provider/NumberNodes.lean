import PhraseGraph.Proofs.Numeral.Literal
import PhraseGraph.Proofs.Provider.Requests

/-!
# PhraseGraph.Proofs.Provider.NumberNodes

Nodes for numbers with their units.

A number is one token whose headword is a decimal literal. Headwords of several tokens have a space
between them, which no literal has, and no token at all has no digits.

## Main statements

`Provider.numberNode_outcome`: which numbers there are nodes for, and what is reported of others.
-/

namespace PhraseGraph

variable {κ : KnowledgeBase}

/-- The headwords of some tokens, with single spaces between them. -/
def Token.joined (ts : List Token) : String := String.intercalate " " (ts.map headword)

theorem Token.joined_cons_cons (t u : Token) (ts : List Token) :
    joined (t :: u :: ts) = t.headword ++ " " ++ joined (u :: ts) := by
  simp [joined]

theorem Literal.not_isNumeral_nil : ¬IsNumeral [] := by
  rw [← isSome_read?_iff]
  decide

namespace Provider

open Token Literal

/-- Headwords make a literal only if there is a single one. -/
theorem isNumeral_joined_iff {ts : List Token} : IsNumeral (joined ts).toList ↔
    ∃ t, ts = [t] ∧ IsNumeral t.headword.toList := by
  match ts with
  | [] => simpa [joined] using not_isNumeral_nil
  | [t] => simp [joined]
  | t :: u :: rest =>
    refine iff_of_false (fun numeral => numeral.space_notMem ?_) (by simp)
    rw [joined_cons_cons]
    simp

variable (number unit : List Token) (s : Supply)

/-- A number is read before anything is made of it. -/
theorem outcome_numberNode :
    Making.outcome (numberNode number unit : Making (Node κ)) s =
      match Binary64.read? (joined number) with
      | none => (.error (.invalidNumber (joined number)), s)
      | some value =>
        (.ok (.quantity value (if unit.isEmpty then none else some (joined unit))), s) := by
  rw [numberNode]
  cases read : Binary64.read? (String.intercalate " " (number.map Token.headword)) <;>
    rw [joined, read] <;> rfl

theorem isSome_read?_joined_iff : (Binary64.read? (joined number)).isSome = true ↔
    ∃ t, number = [t] ∧ IsNumeral t.headword.toList := by
  rw [Binary64.read?, Option.isSome_map, isSome_read?_iff, isNumeral_joined_iff]

/-- There is a node for a number if the number is one token whose headword is a literal. If there is
none, the headwords are reported. A node takes no variable. Its unit is made of the headwords of the
unit, and absent if there are none. -/
theorem numberNode_outcome :
    ((∃ node s', Making.outcome (numberNode number unit : Making (Node κ)) s = (.ok node, s')) ↔
        ∃ t, number = [t] ∧ IsNumeral t.headword.toList) ∧
      (number.length ≠ 1 → Making.outcome (numberNode number unit : Making (Node κ)) s =
        (.error (.invalidNumber (joined number)), s)) ∧
      ∀ node s', Making.outcome (numberNode number unit : Making (Node κ)) s = (.ok node, s') →
        s' = s ∧ ∃ value unit?, node = .quantity value unit? ∧ (unit? = none ↔ unit = []) ∧
          ∀ text, unit? = some text → text = joined unit := by
  rw [outcome_numberNode, ← isSome_read?_joined_iff]
  have single : (Binary64.read? (joined number)).isSome = true → number.length = 1 := by
    rw [isSome_read?_joined_iff]
    rintro ⟨t, rfl, -⟩
    rfl
  revert single
  cases Binary64.read? (joined number) with
  | none => exact fun _ => ⟨by simp, fun _ => rfl, nofun⟩
  | some value =>
    intro single
    refine ⟨by simp, fun several => absurd (single rfl) several, ?_⟩
    rintro _ _ ⟨⟩
    refine ⟨rfl, value, _, rfl, ?_, ?_⟩
    · cases unit <;> simp
    · cases unit <;> simp

/-- A temperature, and headwords of which the first one alone would be a literal. -/
theorem numberNode_outcome_celsius :
    (∃ value, Making.outcome (numberNode [⟨"-.5e1", "CD", "-.5e1"⟩]
        [⟨"degrees", "NNS", "degree"⟩, ⟨"Celsius", "NNP", "Celsius"⟩]) ⟨7⟩ =
          (.ok (.quantity value (some "degree Celsius") : Node .numbered), ⟨7⟩)) ∧
      [(⟨"5", "CD", "5"⟩ : Token), ⟨"", "CD", ""⟩].length ≠ 1 ∧
      Making.outcome (numberNode [⟨"5", "CD", "5"⟩, ⟨"", "CD", ""⟩] [] :
        Making (Node .numbered)) ⟨7⟩ = (.error (.invalidNumber "5 "), ⟨7⟩) := by
  have several : [(⟨"5", "CD", "5"⟩ : Token), ⟨"", "CD", ""⟩].length ≠ 1 := by decide
  refine ⟨?_, several, (numberNode_outcome _ [] _).2.1 several⟩
  obtain ⟨made, -, what⟩ := numberNode_outcome (κ := .numbered) [⟨"-.5e1", "CD", "-.5e1"⟩]
    [⟨"degrees", "NNS", "degree"⟩, ⟨"Celsius", "NNP", "Celsius"⟩] ⟨7⟩
  have numeral : IsNumeral "-.5e1".toList := isSome_read?_iff.mp (by decide)
  obtain ⟨node, s', returned⟩ := made.mpr ⟨_, rfl, numeral⟩
  obtain ⟨rfl, value, unit?, rfl, none_iff, text⟩ := what node s' returned
  obtain ⟨unit, rfl⟩ := Option.ne_none_iff_exists'.mp (mt none_iff.mp (List.cons_ne_nil _ _))
  rw [text unit rfl] at returned
  exact ⟨value, returned⟩

end Provider

end PhraseGraph
