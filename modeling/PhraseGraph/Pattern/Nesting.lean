import PhraseGraph.Pattern.Basic

/-!
# PhraseGraph.Pattern.Nesting

How deep the written form of a pattern is nested, and whether its repetitions can be met.

In the written form a token, a choice and the body of a repetition each stand in a group, and
the operator of a repetition encloses its group. Several items in a row make a concatenation and
several branches make an alternation; each is a level of its own. A sequence has no group: its
members stand among the items of whatever encloses it.
-/

namespace PhraseGraph.Pattern

mutual

/-- The number of items that the pattern puts into the row that it stands in. -/
def itemCount : Pattern → Nat
  | .sequence ps => itemCountAll ps
  | _ => 1

def itemCountAll : List Pattern → Nat
  | [] => 0
  | p :: ps => itemCount p + itemCountAll ps

end

/-- The level that a row of items adds: a concatenation, if there are several. -/
def rowLevel (count : Nat) : Nat := if 1 < count then 1 else 0

/-- The levels within a token: its group, the concatenation of its parts, and where any tag or
any headword will do the repetition of a set of characters. -/
def tokenLevels (t : TokenPattern) : Nat :=
  -- a tag of which only the start is given ends with any characters
  let anyTag := match t.tag with
    | .exact _ => false
    | _ => true
  if anyTag || t.headword.isNone then 5 else 2

mutual

def itemLevels : Pattern → Nat
  | .token t => tokenLevels t
  | .sequence ps => itemLevelsAll ps
  | .anyOf [] => 1
  | .anyOf ps => 1 + rowLevel ps.length + branchLevels ps
  | .optional p => 2 + (rowLevel (itemCount p) + itemLevels p)
  | .repeated p _ _ => 2 + (rowLevel (itemCount p) + itemLevels p)

def itemLevelsAll : List Pattern → Nat
  | [] => 0
  | p :: ps => max (itemLevels p) (itemLevelsAll ps)

/-- The levels of the deepest branch, each branch in a row of its own. -/
def branchLevels : List Pattern → Nat
  | [] => 0
  | p :: ps => max (rowLevel (itemCount p) + itemLevels p) (branchLevels ps)

end

/-- The levels of a whole pattern: a group beside the anchors of the text, and what it holds. -/
def nesting (p : Pattern) : Nat := 2 + (rowLevel (itemCount p) + itemLevels p)

def nestingLimit : Nat := 250

mutual

/-- Whether every repetition in the pattern, taken or not, can end: its bounds are in order. -/
def isBounded : Pattern → Bool
  | .token _ => true
  | .sequence ps => areBounded ps
  | .anyOf ps => areBounded ps
  | .optional p => isBounded p
  | .repeated p least most => (most.all fun most => decide (least ≤ most)) && isBounded p

def areBounded : List Pattern → Bool
  | [] => true
  | p :: ps => isBounded p && areBounded ps

end

/-- Whether the written form of the pattern can be read: no repetition asks for more copies than
it allows, and the nesting stays within the limit. -/
def isWellFormed (p : Pattern) : Bool := p.isBounded && decide (p.nesting ≤ nestingLimit)

end PhraseGraph.Pattern
