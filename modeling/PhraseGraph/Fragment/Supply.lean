import PhraseGraph.Fragment.Basic

/-!
# PhraseGraph.Fragment.Supply

Variables for one query. No variable is given out twice.
-/

namespace PhraseGraph

variable {κ : KnowledgeBase}

/-- The variables that have not been given out: the one that is next and all after it. -/
structure Supply where
  next : Nat := 0
  deriving DecidableEq

def Supply.fresh (s : Supply) : Node κ × Supply := (.var s.next, ⟨s.next + 1⟩)

end PhraseGraph
