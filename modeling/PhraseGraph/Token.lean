import PhraseGraph.Text.Pieces

/-!
# PhraseGraph.Token

A tagged word, and its text form `word/TAG/headword`.

Two tokens count as the same when tag and headword agree: the word as it stood in the phrase
is only carried along for rendering.
-/

namespace PhraseGraph

/-- A word of a phrase with the part of speech and the dictionary form a tagger gave it. -/
structure Token where
  word : String
  tag : String
  headword : String

namespace Token

/-- Tokens are the same when tag and headword agree, whatever the word. -/
instance : BEq Token where
  beq a b := a.tag == b.tag && a.headword == b.headword

/-- The text form `word/TAG/headword`. -/
def render (t : Token) : String :=
  t.word ++ "/" ++ t.tag ++ "/" ++ t.headword

/-- A piece of token text without a slash, hence without a tag. -/
structure MissingTag where
  piece : String
  deriving DecidableEq

def MissingTag.message (e : MissingTag) : String :=
  "token `" ++ e.piece ++ "` has no tag"

/-- Reads `word/TAG/headword`. A missing headword is the word itself, and whatever follows a
third slash is left out. -/
def read (piece : List Char) : Except MissingTag Token :=
  match Text.pieces (· == '/') piece with
  | word :: tag :: headword :: _ =>
    .ok ⟨String.ofList word, String.ofList tag, String.ofList headword⟩
  | [word, tag] => .ok ⟨String.ofList word, String.ofList tag, String.ofList word⟩
  | _ => .error ⟨String.ofList piece⟩

/-- Reads the tokens of a text, which white space separates. The first piece without a tag is
reported. -/
def readAll (text : String) : Except MissingTag (List Token) :=
  (Text.words text.toList).mapM read

end Token

end PhraseGraph
