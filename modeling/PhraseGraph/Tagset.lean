import PhraseGraph.Token
import PhraseGraph.Pattern.Basic

/-!
# PhraseGraph.Tagset

The tags and headwords by which a tagger marks the words that ontology patterns are made of.
-/

namespace PhraseGraph

/-- Tags of the parts of speech, and the headwords of two words with a fixed role. The defaults
are those of the Penn Treebank. -/
structure Tagset where
  determiner : String := "DT"
  preposition : String := "IN"
  adjective : String := "JJ"
  comparativeAdjective : String := "JJR"
  superlativeAdjective : String := "JJS"
  /-- Every tag that begins with this one is a verb's. -/
  verb : String := "VB"
  /-- The headword of the copula, "be". -/
  copula : String := "be"
  /-- The headword that follows a comparative, "than". -/
  comparison : String := "than"
  deriving DecidableEq

namespace Tagset

def isDeterminer (tags : Tagset) (t : Token) : Bool := t.tag == tags.determiner

def isPreposition (tags : Tagset) (t : Token) : Bool := t.tag == tags.preposition

/-- The phrase without one leading determiner, if it has one. -/
def stripDeterminer (tags : Tagset) : List Token → List Token
  | [] => []
  | t :: rest => if tags.isDeterminer t then rest else t :: rest

def copulaPattern (tags : Tagset) : Pattern :=
  .headwordTagged tags.copula (.startsWith tags.verb)

def adjectivePattern (tags : Tagset) (headword : String) : Pattern :=
  .headwordTagged headword (.exact tags.adjective)

/-- The comparative of an adjective and the word of comparison, "older than". -/
def comparativePattern (tags : Tagset) (headword : String) : Pattern :=
  (Pattern.headwordTagged headword (.exact tags.comparativeAdjective)).followedBy
    (.headword tags.comparison)

def superlativePattern (tags : Tagset) (headword : String) : Pattern :=
  .headwordTagged headword (.exact tags.superlativeAdjective)

end Tagset

end PhraseGraph
