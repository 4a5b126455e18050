import PhraseGraph.Fragment.Basic
import PhraseGraph.Fragment.Json
import PhraseGraph.Fragment.Supply
import PhraseGraph.Index
import PhraseGraph.Json.Basic
import PhraseGraph.Json.Reader
import PhraseGraph.Json.Scan
import PhraseGraph.Matcher
import PhraseGraph.Numeral.Binary64
import PhraseGraph.Numeral.Estimate
import PhraseGraph.Numeral.Literal
import PhraseGraph.Ontology.Ancestry
import PhraseGraph.Ontology.Basic
import PhraseGraph.Ontology.Catalog
import PhraseGraph.Ontology.Json
import PhraseGraph.Ontology.Sample
import PhraseGraph.Pattern.Basic
import PhraseGraph.Pattern.Encoding
import PhraseGraph.Pattern.Nesting
import PhraseGraph.Pattern.Written
import PhraseGraph.Proofs.FirstOccurrences
import PhraseGraph.Proofs.Fragment.Combinations
import PhraseGraph.Proofs.Fragment.Encoding
import PhraseGraph.Proofs.Fragment.Normal
import PhraseGraph.Proofs.Fragment.Renaming
import PhraseGraph.Proofs.Fragment.Traversal
import PhraseGraph.Proofs.Fragment.Truth
import PhraseGraph.Proofs.Fragment.Variables
import PhraseGraph.Proofs.Grouping
import PhraseGraph.Proofs.Index.Adjectives
import PhraseGraph.Proofs.Index.Consistency
import PhraseGraph.Proofs.Index.Lookups
import PhraseGraph.Proofs.Index.Relations
import PhraseGraph.Proofs.Index.Usages
import PhraseGraph.Proofs.Json.Grammar
import PhraseGraph.Proofs.Json.Reading
import PhraseGraph.Proofs.Json.Records
import PhraseGraph.Proofs.Json.Sameness
import PhraseGraph.Proofs.Json.Skipping
import PhraseGraph.Proofs.Json.Strings
import PhraseGraph.Proofs.Matcher.Boundaries
import PhraseGraph.Proofs.Matcher.Flattening
import PhraseGraph.Proofs.Matcher.Full
import PhraseGraph.Proofs.Matcher.Independence
import PhraseGraph.Proofs.Matcher.Leading
import PhraseGraph.Proofs.Matcher.Malformed
import PhraseGraph.Proofs.Matcher.Stability
import PhraseGraph.Proofs.Numeral.Literal
import PhraseGraph.Proofs.Ontology.Ancestry
import PhraseGraph.Proofs.Ontology.Catalog
import PhraseGraph.Proofs.Ontology.Declarations
import PhraseGraph.Proofs.Outcomes
import PhraseGraph.Proofs.Pattern.Canonical
import PhraseGraph.Proofs.Pattern.Contexts
import PhraseGraph.Proofs.Pattern.Encoding
import PhraseGraph.Proofs.Pattern.Flattening
import PhraseGraph.Proofs.Pattern.Language
import PhraseGraph.Proofs.Pattern.Nesting
import PhraseGraph.Proofs.Pattern.Priority
import PhraseGraph.Proofs.Pattern.Rows
import PhraseGraph.Proofs.Pattern.Written
import PhraseGraph.Proofs.Provider.Alternatives
import PhraseGraph.Proofs.Provider.ClassPhrases
import PhraseGraph.Proofs.Provider.Determiners
import PhraseGraph.Proofs.Provider.Failures
import PhraseGraph.Proofs.Provider.Normal
import PhraseGraph.Proofs.Provider.NumberNodes
import PhraseGraph.Proofs.Provider.Plans
import PhraseGraph.Proofs.Provider.PropertyEdges
import PhraseGraph.Proofs.Provider.Renaming
import PhraseGraph.Proofs.Provider.Requests
import PhraseGraph.Proofs.Provider.Sessions
import PhraseGraph.Proofs.Provider.Slices
import PhraseGraph.Proofs.Provider.Variables
import PhraseGraph.Proofs.Provider.Words
import PhraseGraph.Proofs.Regex.Built
import PhraseGraph.Proofs.Regex.Exploration
import PhraseGraph.Proofs.Regex.Form
import PhraseGraph.Proofs.Regex.Language
import PhraseGraph.Proofs.Regex.Priority
import PhraseGraph.Proofs.Regex.Repetitions
import PhraseGraph.Proofs.Regex.Search
import PhraseGraph.Proofs.Regex.Sharing
import PhraseGraph.Proofs.Regex.Threads
import PhraseGraph.Proofs.Settings
import PhraseGraph.Proofs.Text.Words
import PhraseGraph.Proofs.Token.Json
import PhraseGraph.Proofs.Token.Text
import PhraseGraph.Proofs.Ways
import PhraseGraph.Provider
import PhraseGraph.Regex.Basic
import PhraseGraph.Regex.Builders
import PhraseGraph.Regex.Form
import PhraseGraph.Regex.Search
import PhraseGraph.Regex.Size
import PhraseGraph.Regex.Threads
import PhraseGraph.Regex.Trie
import PhraseGraph.Settings
import PhraseGraph.Tagset
import PhraseGraph.Tagset.Json
import PhraseGraph.Text.Pieces
import PhraseGraph.Token
import PhraseGraph.Token.Json
