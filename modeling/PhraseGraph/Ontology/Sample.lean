import PhraseGraph.Ontology.Basic

/-!
# PhraseGraph.Ontology.Sample

A small ontology in the shape of Wikidata. Classes are mapped to items and properties to
Wikidata properties, both by their numbers.
-/

namespace PhraseGraph.Sample

def noun (headword : String) : Pattern := .headwordTagged headword (.startsWith "NN")

def verb (headword : String) : Pattern := .headwordTagged headword (.startsWith "VB")

def properties : List (Property .numbered) := [
  { id := "isA", mapping := some 31 },
  { id := "label" },
  { id := "died", mapping := some 570, patterns := [.named (verb "die")] },
  { id := "hasAge"
    patterns := [
      .named (noun "age"),
      .superlative "old" .descending,
      .superlative "young" .ascending,
      .comparative "old" .greaterThan,
      .comparative "young" .lessThan] },
  { id := "hasHeight"
    mapping := some 2048
    patterns := [
      .adjective "tall" none,
      .superlative "tall" .descending,
      .comparative "tall" .greaterThan] },
  { id := "hasBirthDate"
    mapping := some 569
    patterns := [
      .value (verb "bear") none,
      .value (verb "bear") (some (.named (.headword "in"))),
      .value (verb "bear") (some (.comparative (.headword "before") .lessThan)),
      .value (verb "bear") (some (.comparative (.headword "after") .greaterThan))] },
  { id := "hasPlaceOfBirth"
    mapping := some 19
    patterns := [
      .named (noun "birthplace"),
      .value (verb "bear") (some (.named (.headword "in")))] },
  { id := "hasAuthor"
    mapping := some 50
    patterns := [
      .named (noun "author"),
      .inverse (verb "write") (some (.named (.headword "by")))] },
  { id := "hasChild", mapping := some 40 },
  { id := "hasMother", mapping := some 25 }]

def classes : List (Class .numbered) := [
  { id := "Person", mapping := some 5, names := [noun "person"] },
  { id := "Female"
    mapping := some 6581072
    names := [noun "woman", noun "female"]
    superclasses := ["Person"] },
  { id := "Male", mapping := some 6581097, names := [noun "man"], superclasses := ["Person"] },
  { id := "Child"
    names := [noun "child"]
    superclasses := ["Person"]
    relations := [{ property := "hasChild", direction := .incoming }] },
  { id := "Mother"
    names := [noun "mother"]
    superclasses := ["Female"]
    equivalents := [.chain [.incoming "hasMother"]] },
  { id := "Place"
    mapping := some 2221906
    names := [noun "place"]
    relations := [{ property := "hasPlaceOfBirth", direction := .incoming,
                    pattern := some (.headwords "of birth") }] },
  { id := "Book"
    mapping := some 571
    names := [noun "book"]
    relations := [{ property := "hasAuthor", direction := .outgoing }] }]

/-- The ontology of people, places and books. -/
def ontology : Ontology .numbered :=
  .ofDeclarations (properties.map .ofProperty ++ classes.map .ofClass ++
    [.instanceProperty "isA", .labelProperty "label", .personClass "Person"])

end PhraseGraph.Sample
