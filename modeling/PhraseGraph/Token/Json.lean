import PhraseGraph.Token
import PhraseGraph.Json.Basic
import PhraseGraph.Json.Reader

/-!
# PhraseGraph.Token.Json

Tokens as JSON records. All fields are required.
-/

namespace PhraseGraph.Token

inductive Field where
  | word
  | tag
  | headword
  deriving DecidableEq

namespace Field

def all : List Field := [.word, .tag, .headword]

def key : Field → String
  | .word => "word"
  | .tag => "tag"
  | .headword => "lemma"

def ofKey? (key : String) : Option Field := all.find? fun field => field.key == key

end Field

def readJson : Json.Reader Token := fun cs =>
  (Json.readRecord Field.ofKey? (fun _ => Json.readString) Field.all true cs).map
    fun (known, rest) =>
      let get (field : Field) := (known.lookup field).getD ""
      (⟨get .word, get .tag, get .headword⟩, rest)

def toJson (t : Token) : Json :=
  .object [("word", .string t.word), ("tag", .string t.tag), ("lemma", .string t.headword)]

end PhraseGraph.Token
