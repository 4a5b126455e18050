import PhraseGraph.Matcher
import PhraseGraph.Regex.Form

/-!
# PhraseGraph.Pattern.Written

Patterns as the text of a regular expression.

Tags and headwords are written so that each of their characters stands for itself. A token, a choice
and the body of a repetition each stand in a group. A sequence has no group: its members are written
one after another.
-/

namespace PhraseGraph

open Regex (escape)

namespace Pattern

def writtenTagEnd : List Char := ['\\', 'x', '1', 'F']

def writtenTokenEnd : List Char := ['\\', 'x', '1', 'E']

/-- Any tag or headword: characters that end nothing. -/
def writtenField : List Char := ['[', '^'] ++ writtenTokenEnd ++ writtenTagEnd ++ [']', '*']

/-- No character at all. -/
def writtenNever : List Char := "[^\\x00-\\x\x7b10FFFF\x7d]".toList

def writtenTag : TagCondition → List Char
  | .any => writtenField
  | .exact tag => escape (fieldText tag)
  | .startsWith start => escape (fieldText start) ++ writtenField

def writtenHeadword : Option String → List Char
  | none => writtenField
  | some text => escape (fieldText text)

def writtenGroup (body : List Char) : List Char := ['(', '?', ':'] ++ body ++ [')']

def writtenToken (t : TokenPattern) : List Char :=
  writtenGroup (writtenTag t.tag ++ writtenTagEnd ++ writtenHeadword t.headword ++ writtenTokenEnd)

/-- The bounds of a repetition. -/
def writtenBounds (least : Nat) (most : Option Nat) : List Char :=
  '\x7b' :: Nat.toDigits 10 least ++ ',' :: most.elim [] (Nat.toDigits 10) ++ ['\x7d']

mutual

/-- The pattern as a part of an expression. -/
def written : Pattern → List Char
  | .token t => writtenToken t
  | .sequence ps => writtenAll ps
  | .anyOf [] => writtenNever
  | .anyOf (p :: ps) => writtenGroup (written p ++ writtenOthers ps)
  | .optional p => writtenGroup (written p) ++ ['?']
  | .repeated p least most => writtenGroup (written p) ++ writtenBounds least most

def writtenAll : List Pattern → List Char
  | [] => []
  | p :: ps => written p ++ writtenAll ps

/-- The branches of a choice behind the first one. -/
def writtenOthers : List Pattern → List Char
  | [] => []
  | p :: ps => '|' :: written p ++ writtenOthers ps

end

/-- The expression that a pattern is matched by: from the start of the text on, and to its end if
all of it has to be covered. -/
def source (mode : MatchMode) (p : Pattern) : List Char :=
  ['\\', 'A'] ++ writtenGroup (written p) ++
    match mode with
    | .full => ['\\', 'z']
    | .leading => []

/-- "PRP$" is a tag, not an end of the text. -/
example : String.ofList (source .full (.followedBy (.headwordTagged "be" (.startsWith "VB"))
    (.tagged (.exact "PRP$")))) =
    "\\A(?:(?:VB[^\\x1E\\x1F]*\\x1Fbe\\x1E)(?:PRP\\$\\x1F[^\\x1E\\x1F]*\\x1E))\\z" := by
  decide +kernel

end Pattern

end PhraseGraph
