import PhraseGraph.Token
import PhraseGraph.Pattern.Basic
import PhraseGraph.Regex.Builders

/-!
# PhraseGraph.Pattern.Encoding

Tokens as text, and patterns as regular expressions over that text.

A token is its tag and its headword, each ended by a control character that is left out of the
tag and the headword themselves. So a token's text tells where it ends, and an expression made
from a pattern matches whole tokens only. Words play no part.
-/

namespace PhraseGraph

def tagEnd : Char := '\u001F'

def tokenEnd : Char := '\u001E'

/-- The characters of a tag or headword, without the two that end tags and tokens. -/
def fieldText (text : String) : List Char :=
  text.toList.filter fun c => c != tagEnd && c != tokenEnd

def Token.encode (t : Token) : List Char :=
  fieldText t.tag ++ tagEnd :: fieldText t.headword ++ [tokenEnd]

def encode (ts : List Token) : List Char := ts.flatMap Token.encode

/-- The number of tokens that end in a part of a text. -/
def tokenCount (cs : List Char) : Nat := cs.count tokenEnd

namespace Pattern

/-- The text of any tag or headword. -/
def anyField : Regex := .repeating (.char (.except [tokenEnd, tagEnd])) 0 none

def tagRegex : TagCondition → List Regex
  | .any => [anyField]
  | .exact tag => Regex.literal (fieldText tag)
  | .startsWith start => Regex.literal (fieldText start) ++ [anyField]

def headwordRegex : Option String → List Regex
  | none => [anyField]
  | some text => Regex.literal (fieldText text)

def tokenRegex (t : TokenPattern) : Regex :=
  .inOrder (tagRegex t.tag ++ Regex.literal [tagEnd] ++
    headwordRegex t.headword ++ Regex.literal [tokenEnd])

mutual

/-- The pattern as an expression over the text of tokens. -/
def regex : Pattern → Regex
  | .token t => tokenRegex t
  | .sequence ps => .inOrder (regexes ps)
  | .anyOf ps => .oneOf (regexes ps)
  | .optional p => .repeating (regex p) 0 (some 1)
  | .repeated p least most => .repeating (regex p) least most

def regexes : List Pattern → List Regex
  | [] => []
  | p :: ps => regex p :: regexes ps

end

@[simp] theorem regexes_eq_map (ps : List Pattern) : regexes ps = ps.map regex := by
  induction ps with
  | nil => rfl
  | cons p ps ih => simp [regexes, ih]

end Pattern

end PhraseGraph
