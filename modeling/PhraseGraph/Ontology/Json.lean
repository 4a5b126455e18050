import PhraseGraph.Ontology.Basic
import PhraseGraph.Json.Basic
import PhraseGraph.Json.Reader

/-!
# PhraseGraph.Ontology.Json

The names under which comparisons, orders and directions stand in JSON texts.
-/

namespace PhraseGraph

namespace Comparison

def key : Comparison → String
  | .greaterThan => "greaterThan"
  | .lessThan => "lessThan"

def read : Json.Reader Comparison :=
  Json.readName ([.greaterThan, .lessThan].map fun c => (key c, c))

def toJson (c : Comparison) : Json := .string c.key

end Comparison

namespace Order

def key : Order → String
  | .ascending => "ascending"
  | .descending => "descending"

def read : Json.Reader Order := Json.readName ([.ascending, .descending].map fun o => (key o, o))

def toJson (o : Order) : Json := .string o.key

end Order

namespace Direction

def key : Direction → String
  | .incoming => "incoming"
  | .outgoing => "outgoing"

def read : Json.Reader Direction := Json.readName ([.incoming, .outgoing].map fun d => (key d, d))

def toJson (d : Direction) : Json := .string d.key

end Direction

end PhraseGraph
