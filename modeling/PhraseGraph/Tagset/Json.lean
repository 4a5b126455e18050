import PhraseGraph.Tagset
import PhraseGraph.Json.Basic
import PhraseGraph.Json.Reader

/-!
# PhraseGraph.Tagset.Json

Tagsets as JSON records. A field that the text leaves out has its default.
-/

namespace PhraseGraph.Tagset

inductive Field where
  | determiner
  | preposition
  | adjective
  | comparativeAdjective
  | superlativeAdjective
  | verb
  | copula
  | comparison
  deriving DecidableEq

namespace Field

def all : List Field :=
  [.determiner, .preposition, .adjective, .comparativeAdjective, .superlativeAdjective, .verb,
   .copula, .comparison]

def key : Field → String
  | .determiner => "determiner"
  | .preposition => "preposition"
  | .adjective => "adjective"
  | .comparativeAdjective => "comparative_adjective"
  | .superlativeAdjective => "superlative_adjective"
  | .verb => "verb"
  | .copula => "copula_lemma"
  | .comparison => "comparison_lemma"

def ofKey? (key : String) : Option Field := all.find? fun field => field.key == key

end Field

def get (tags : Tagset) : Field → String
  | .determiner => tags.determiner
  | .preposition => tags.preposition
  | .adjective => tags.adjective
  | .comparativeAdjective => tags.comparativeAdjective
  | .superlativeAdjective => tags.superlativeAdjective
  | .verb => tags.verb
  | .copula => tags.copula
  | .comparison => tags.comparison

def set (tags : Tagset) (text : String) : Field → Tagset
  | .determiner => { tags with determiner := text }
  | .preposition => { tags with preposition := text }
  | .adjective => { tags with adjective := text }
  | .comparativeAdjective => { tags with comparativeAdjective := text }
  | .superlativeAdjective => { tags with superlativeAdjective := text }
  | .verb => { tags with verb := text }
  | .copula => { tags with copula := text }
  | .comparison => { tags with comparison := text }

/-- The default tagset with the given fields in place of its own. -/
def ofFields (known : List (Field × String)) : Tagset :=
  known.foldl (fun tags entry => tags.set entry.2 entry.1) {}

def read : Json.Reader Tagset := fun cs =>
  (Json.readRecord Field.ofKey? (fun _ => Json.readString) Field.all false cs).map
    fun (known, rest) => (ofFields known, rest)

def toJson (tags : Tagset) : Json :=
  .object (Field.all.map fun field => (field.key, .string (tags.get field)))

end PhraseGraph.Tagset
