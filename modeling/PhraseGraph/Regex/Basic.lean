/-!
# PhraseGraph.Regex.Basic

Regular expressions over characters.
-/

namespace PhraseGraph

/-- The characters that one step of an expression may read. -/
inductive CharSet where
  | none
  | only (c : Char)
  | except (cs : List Char)
  deriving DecidableEq

def CharSet.accepts : CharSet → Char → Bool
  | .none, _ => false
  | .only d, c => c == d
  | .except cs, c => !cs.contains c

/-- A regular expression. The branches of a choice are tried in order, and a repetition would
rather go on than stop. -/
inductive Regex where
  | char (set : CharSet)
  | concat (parts : List Regex)
  | choice (branches : List Regex)
  /-- The body at least `least` times and at most `most` times, without end if that is absent. -/
  | repeated (body : Regex) (least : Nat) (most : Option Nat)

namespace Regex

/-! ### Equality -/

mutual

def same : Regex → Regex → Bool
  | .char s, .char t => s == t
  | .concat es, .concat fs => sameAll es fs
  | .choice es, .choice fs => sameAll es fs
  | .repeated e least most, .repeated f least' most' =>
    least == least' && most == most' && same e f
  | _, _ => false

def sameAll : List Regex → List Regex → Bool
  | [], [] => true
  | e :: es, f :: fs => same e f && sameAll es fs
  | _, _ => false

end

mutual

theorem same_iff : ∀ e f : Regex, same e f = true ↔ e = f
  | .char s, f => by cases f <;> simp [same]
  | .concat es, f => by cases f <;> simp [same, sameAll_iff es]
  | .choice es, f => by cases f <;> simp [same, sameAll_iff es]
  | .repeated e least most, f => by
    cases f <;> simp [same, same_iff e, and_comm]

theorem sameAll_iff : ∀ es fs : List Regex, sameAll es fs = true ↔ es = fs
  | [], fs => by cases fs <;> simp [sameAll]
  | e :: es, fs => by cases fs <;> simp [sameAll, same_iff e, sameAll_iff es]

end

/-- Equality. Expressions that are compared often are one and the same, which is seen at once. -/
instance : DecidableEq Regex := fun e f =>
  withPtrEqDecEq e f fun _ => decidable_of_iff _ (same_iff e f)

/-! ### Parts -/

def empty : Regex := .concat []

def never : Regex := .char .none

def literal (cs : List Char) : List Regex := cs.map fun c => .char (.only c)

/-- The parts of a concatenation, or the expression itself. -/
def parts : Regex → List Regex
  | .concat es => es
  | e => [e]

def branches : Regex → List Regex
  | .choice es => es
  | e => [e]

end Regex

end PhraseGraph
