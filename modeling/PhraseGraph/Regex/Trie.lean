/-!
# PhraseGraph.Regex.Trie

Texts of bytes, merged where they start alike.

The alternatives of a trie stand in order of preference. A text is merged with earlier ones only
as long as none of them has ended in between: one that has ended is preferred to whatever comes
after it, and dispreferred to whatever came before.
-/

namespace PhraseGraph.Regex

/-- Alternatives in order of preference. -/
inductive Trie where
  | nil
  | stop (later : Trie)
  /-- A byte with all that may follow it. -/
  | step (byte : UInt8) (below later : Trie)
  deriving DecidableEq

namespace Trie

def isLeaf : Trie → Bool
  | .stop .nil => true
  | _ => false

def stops : Trie → Bool
  | .nil => false
  | .stop _ => true
  | .step _ _ later => later.stops

def ofText : List UInt8 → Trie
  | [] => .stop .nil
  | b :: bs => .step b (ofText bs) .nil

/-- Adds a text that is less preferred than all others. A text that ends where another one ends
and nothing goes on is no new alternative. -/
def insert : Trie → List UInt8 → Trie
  | .nil, bs => ofText bs
  | .stop later, bs => .stop (later.insert bs)
  | .step b below later, [] => .step b below (later.insert [])
  | .step b below later, c :: cs =>
    if b = c ∧ !later.stops then
      .step b (if below.isLeaf && cs.isEmpty then below else below.insert cs) later
    else .step b below (later.insert (c :: cs))

/-- The trie of texts, the preferred ones first. -/
def ofTexts (texts : List (List UInt8)) : Trie := texts.foldl insert .nil

example : ofTexts [[1, 2], [1, 3], [1, 2]] =
    .step 1 (.step 2 (.stop .nil) (.step 3 (.stop .nil) .nil)) .nil := by decide

example : ofTexts [[1, 2], [1], [1, 2]] =
    .step 1 (.step 2 (.stop .nil) (.stop (.step 2 (.stop .nil) .nil))) .nil := by decide

end Trie

end PhraseGraph.Regex
